import LPRounding.Decimal.Binary

/-!
The shortest decimal that reads back as a given floating point value, and its text.
-/

namespace LPRounding.Decimal

structure Digits where
  digits : Nat
  exponent : Int
  deriving DecidableEq, Repr

/-- The numbers that round to `m * 2 ^ e`; the ends belong when the mantissa is even. -/
structure Interval where
  low : Rat
  middle : Rat
  high : Rat
  closed : Bool

/-- Half a unit to either side, a quarter below a power of two. -/
def Interval.around (m : Nat) (e : Int) : Interval :=
  let quarter := power 2 (e - 2)
  let gap : Nat := if m == leadingBit && e != -1074 then 1 else 2
  { low := (4 * m - gap : Nat) * quarter
    middle := (4 * m : Nat) * quarter
    high := (4 * m + 2 : Nat) * quarter
    closed := m % 2 == 0 }

def Interval.contains (i : Interval) (x : Rat) : Bool :=
  if i.closed then i.low ≤ x && x ≤ i.high else i.low < x && x < i.high

def Interval.magnitude (i : Interval) : Int :=
  match (List.range 640).find? fun (k : Nat) => i.middle < power 10 ((k : Int) - 324) with
  | some k => (k : Int) - 324
  | none => 309

/-- The point of the interval on the grid of step `10 ^ s`: of two the nearer, of two equally near
ones the even. -/
def Interval.onGrid (i : Interval) (s : Int) : Option Nat :=
  let step := power 10 s
  let d := (i.middle / step).floor.toNat
  let rest := i.middle - d * step
  match i.contains (d * step) && d != 0, i.contains ((d + 1 : Nat) * step) with
  | true, true =>
    if 2 * rest < step then some d
    else if step < 2 * rest then some (d + 1)
    else some (if d % 2 == 0 then d else d + 1)
  | true, false => some d
  | false, true => some (d + 1)
  | false, false => none

/-- The coarsest grid that meets the interval, from one digit to seventeen. -/
def Interval.shortest (i : Interval) : Digits :=
  let p := i.magnitude
  match (List.range 17).findSome? fun (n : Nat) =>
      (i.onGrid (p - n - 1)).map fun d => Digits.mk d (p - n - 1) with
  | some d => d
  | none => { digits := i.middle.floor.toNat, exponent := 0 }

def Digits.leading (d : Digits) : List Char × Int :=
  let cs := Nat.toDigits 10 d.digits
  ((cs.reverse.dropWhile (· == '0')).reverse, cs.length + d.exponent)

/-- Positional from `10 ^ -4` to below `10 ^ 16`, always with a point; otherwise with an exponent of
at least two digits and its sign. -/
def Digits.render (d : Digits) : String :=
  let (cs, point) := d.leading
  let zeros (n : Int) := List.replicate n.toNat '0'
  String.ofList <|
    if -4 < point && point ≤ 16 then
      if point ≤ 0 then ['0', '.'] ++ zeros (-point) ++ cs
      else if (cs.length : Int) ≤ point then cs ++ zeros (point - cs.length) ++ ['.', '0']
      else cs.take point.toNat ++ ['.'] ++ cs.drop point.toNat
    else
      let e := point - 1
      let exponent := Nat.toDigits 10 e.natAbs
      let padded := if exponent.length < 2 then '0' :: exponent else exponent
      let lead := match cs with
        | [] => ['0']
        | [c] => [c]
        | c :: rest => c :: '.' :: rest
      lead ++ ['e', if e < 0 then '-' else '+'] ++ padded

def signed (negative : Bool) (text : String) : String := if negative then "-" ++ text else text

def shortest (x : Float) : String :=
  match Binary.ofFloat x with
  | .undefined => "nan"
  | .infinite negative => signed negative "inf"
  | .finite negative 0 _ => signed negative "0.0"
  | .finite negative m e => signed negative (Interval.around m e).shortest.render

end LPRounding.Decimal
