import LPRounding.Text.Hidden

/-!
Names of graph vertices, jobs and machines: numbers or texts. A number never equals a text.
-/

namespace LPRounding

inductive Node where
  | number (n : Int)
  | name (s : String)
  deriving DecidableEq, Repr, Inhabited

namespace Node

def text : Node → String
  | .number n => toString n
  | .name s => s

def hexDigits : Nat → Nat → List Char
  | 0, _ => []
  | count + 1, n => hexDigits count (n / 16) ++ [Nat.digitChar (n % 16)]

def codePoint (n : Nat) : List Char :=
  if n < 0x100 then '\\' :: 'x' :: hexDigits 2 n
  else if n < 0x10000 then '\\' :: 'u' :: hexDigits 4 n
  else '\\' :: 'U' :: hexDigits 8 n

def escape (quote c : Char) : List Char :=
  if c == quote || c == '\\' then ['\\', c]
  else if c == '\n' then ['\\', 'n']
  else if c == '\r' then ['\\', 'r']
  else if c == '\t' then ['\\', 't']
  else if Text.isHidden c then codePoint c.toNat
  else [c]

/-- Single quotes, unless the text holds those and no double ones. -/
def quote (s : String) : String :=
  let cs := s.toList
  let q := if cs.contains '\'' && !cs.contains '"' then '"' else '\''
  String.ofList ([q] ++ cs.flatMap (escape q) ++ [q])

def quoted : Node → String
  | .number n => toString n
  | .name s => quote s

end Node

/-- Places of an auxiliary flow network: graph vertices, two ends of its own, and one place for each
LP column that stands for a component. -/
inductive Site where
  | vertex (v : Node)
  | source
  | sink
  | component (column : Nat)
  deriving DecidableEq, Repr, Inhabited

def Site.text : Site → String
  | .vertex v => v.text
  | .source => "<source>"
  | .sink => "<sink>"
  | .component column => "('component', " ++ toString column ++ ")"

/-- Round brackets; a single entry keeps its comma. -/
def tupleText : List String → String
  | [] => "()"
  | [x] => "(" ++ x ++ ",)"
  | xs => "(" ++ String.intercalate ", " xs ++ ")"

end LPRounding
