/-!
Upper case for names written in Latin capitals. A character is listed when its upper case consists
of the letters A to Z; every other character stands for itself, which no such name contains.
-/

namespace LPRounding.Text

def capital (c : Char) : List Char :=
  match c.toNat with
  | 0x131 => ['I']
  | 0x17F => ['S']
  | 0xDF => ['S', 'S']
  | 0xFB00 => ['F', 'F']
  | 0xFB01 => ['F', 'I']
  | 0xFB02 => ['F', 'L']
  | 0xFB03 => ['F', 'F', 'I']
  | 0xFB04 => ['F', 'F', 'L']
  | 0xFB05 => ['S', 'T']
  | 0xFB06 => ['S', 'T']
  | _ => [c.toUpper]

def upper (s : String) : String := String.ofList (s.toList.flatMap capital)

end LPRounding.Text
