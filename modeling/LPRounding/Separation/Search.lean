import LPRounding.Run.Event
import LPRounding.Tolerance

/-!
Searching a list of candidates for a violated constraint. The strategies differ in the order and in
which violation they report, and agree on whether there is one.
-/

namespace LPRounding

inductive Strategy where
  | first
  | random
  | most
  deriving DecidableEq, Repr

instance : Named Strategy where
  members := [.first, .random, .most]
  name
    | .first => "FIRST"
    | .random => "RANDOM"
    | .most => "MOST"
  subject := "oracle strategy"

/-- A strategy by number: the first and the last have their own, any other is the random one. -/
def Strategy.ofNumber (n : Int) : Strategy :=
  if n = 1 then .first else if n = 3 then .most else .random

def Strategy.oracleName : Strategy → String
  | .first => "FirstViolatedSeparationOracle"
  | .random => "RandomViolatedSeparationOracle"
  | .most => "MostViolatedSeparationOracle"

/-- What checking one candidate found. The witness is the set of vertices whose constraint it is,
`side` the right-hand side of that constraint. -/
structure Violation (K C : Type) where
  magnitude : K
  candidate : C
  witness : List Node
  side : K

/-- A finished search: the violation it reports, and the candidates it checked, in order. -/
structure Search (K C : Type) where
  found : Option (Violation K C)
  checked : List C

namespace Search

variable {K C : Type} [Scalar K]

/-- A constraint is violated when its magnitude is above zero by more than the tolerance. -/
def violated (t : Tolerance K) (v : Violation K C) : Bool := t.above v.magnitude 0

def scan (t : Tolerance K) (check : C → Except (Fault K) (Violation K C)) :
    List C → Except (Fault K) (Search K C)
  | [] => return { found := none, checked := [] }
  | c :: rest => do
    let v ← check c
    if violated t v then return { found := some v, checked := [c] }
    let s ← scan t check rest
    return { s with checked := c :: s.checked }

def rotate (start : Nat) (cs : List C) : List C :=
  let k := start % cs.length
  cs.drop k ++ cs.take k

/-- The earlier of two violations unless the later one is larger. -/
def worse (best : Option (Violation K C)) (v : Violation K C) : Option (Violation K C) :=
  match best with
  | none => some v
  | some b => if b.magnitude < v.magnitude then some v else some b

def worst (t : Tolerance K) (check : C → Except (Fault K) (Violation K C)) (cs : List C) :
    Except (Fault K) (Search K C) := do
  let vs ← cs.mapM check
  return { found := (vs.foldl worse none).filter (violated t), checked := cs }

end Search

end LPRounding
