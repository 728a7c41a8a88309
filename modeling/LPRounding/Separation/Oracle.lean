import LPRounding.Separation.Search
import LPRounding.Random.Dice
import LPRounding.Run.State

/-!
Separation oracles. An oracle wraps a checker, which knows one family of constraints, in a search
strategy; it records at most one violation, which the next added row uses up.
-/

namespace LPRounding

/-- One family of constraints: `prepare` reads the current point, `check` measures a candidate
against what was prepared, `row` is the constraint of a violation. -/
structure Checker (P K C N : Type) where
  prepare : P → Model K → Except (Fault K) (N × List C)
  check : P → N → C → Except (Fault K) (Violation K C)
  row : P → Violation K C → Row K
  describe : C → Candidate

/-- `S` is the type of the random source. -/
structure Oracle (K S C N : Type) where
  strategy : Strategy
  dice : S
  rowsAdded : Nat := 0
  prepared : Option N := none
  violation : Option (Violation K C) := none

namespace Oracle

variable {P K S C N : Type} [Scalar K] [Dice S K]

/-- The search of the strategy; a starting point is drawn by the random one alone. -/
def search (t : Tolerance K) (check : C → Except (Fault K) (Violation K C)) (cs : List C) :
    EStateM (Fault K) (Oracle K S C N) (Search K C) := do
  match (← get).strategy with
  | .first => Search.scan t check cs
  | .most => Search.worst t check cs
  | .random =>
    let (start, dice) := Dice.below cs.length (← get).dice
    modify fun o => { o with dice }
    Search.scan t check (Search.rotate start cs)

def examine (k : Checker P K C N) (t : Tolerance K) (p : P) (m : Model K) :
    EStateM (Fault K) (Oracle K S C N) (Search K C) := do
  let (prepared, cs) ← k.prepare p m
  modify fun o => { o with prepared := some prepared }
  let s ← if cs.isEmpty then pure { found := none, checked := [] }
    else search t (k.check p prepared) cs
  modify fun o => { o with violation := s.found }
  return s

/-- Measures a candidate against the state of the last preparation. -/
def measure (k : Checker P K C N) (p : P) (o : Oracle K S C N) (c : C) :
    Except (Fault K) (Violation K C) :=
  match o.prepared with
  | some prepared => k.check p prepared c
  | none => .error .notPrepared

/-- The recorded violation, which is then forgotten. -/
def take : EStateM (Fault K) (Oracle K S C N) (Violation K C) := do
  let o ← get
  match o.violation with
  | none => throw .noViolation
  | some v =>
    set ({ o with violation := none, rowsAdded := o.rowsAdded + 1 } : Oracle K S C N)
    return v

structure Home (P K S C N : Type) where
  get : P → Oracle K S C N
  set : P → Oracle K S C N → P

def Home.lift {α : Type} (h : Home P K S C N) (f : P → EStateM (Fault K) (Oracle K S C N) α) :
    EStateM (Fault K) P α := fun p =>
  match f p (h.get p) with
  | .ok a o => .ok a (h.set p o)
  | .error e o => .error e (h.set p o)

def feasible (h : Home P K S C N) (k : Checker P K C N) (tolerance : P → Tolerance K) :
    Action P K Bool := do
  let m ← Action.model
  let s ← Action.onProblem (h.lift fun p => examine k (tolerance p) p m)
  return s.found.isNone

def separate (h : Home P K S C N) (k : Checker P K C N) : Action P K Nat := do
  let p ← Action.problem
  let v ← Action.onProblem (h.lift fun _ => take)
  let row ← Action.onModel (Model.appendRow (k.row p v))
  Action.note (.rowAdded row (k.describe v.candidate) v.magnitude v.witness.length)
  return row

end Oracle

/-- Columns with coefficient one, in a row with one end. -/
def cover (kind : BoundKind) (lo hi : K) [Scalar K] (columns : List Nat) : Row K :=
  { bound := { kind, lo, hi }, coefs := columns.map fun j => (j, 1) }

end LPRounding
