import LPRounding.LP.System

/-!
Linear programs that are edited between solves. Columns and rows keep the ids they were given, a
fixed column stays in the model as a constant, a relaxed row leaves every later system for good, and
the last solution is readable until the next solve.
-/

namespace LPRounding

structure Column (K : Type) where
  cost : K
  bound : Bound K
  fixed : Option K := none

structure Row (K : Type) where
  bound : Bound K
  coefs : List (Nat × K) := []
  relaxed : Bool := false

structure Solution (K : Type) where
  values : List K
  objective : K

structure Model (K : Type) where
  name : String := ""
  direction : Direction := .minimize
  columns : List (Column K) := []
  rows : List (Row K) := []
  loaded : Bool := false
  solution : Option (Solution K) := none

/-- A change of a model, which may fail part of the way. -/
abbrev Edit (K : Type) := EStateM (Fault K) (Model K)

instance liftExcept {ε σ : Type} : MonadLift (Except ε) (EStateM ε σ) where
  monadLift
    | .ok a => fun s => .ok a s
    | .error e => fun s => .error e s

variable {K : Type} [Scalar K]

def addTo (column : Nat) (c : K) : List (Nat × K) → List (Nat × K)
  | [] => [(column, 0 + c)]
  | (j, a) :: rest => if j = column then (j, a + c) :: rest else (j, a) :: addTo column c rest

def Row.addCoef (r : Row K) (column : Nat) (c : K) : Row K :=
  { r with coefs := addTo column c r.coefs }

def Column.isActive (c : Column K) : Bool := c.fixed.isNone

/-- Bounds of a column in a system: a constant once it is fixed. -/
def Column.bounds (c : Column K) : Option K × Option K :=
  match c.fixed with
  | some v => (some v, some v)
  | none => (c.bound.floor?, c.bound.ceiling?)

/-- A column added after the last solve has no value in it. -/
def Solution.value (s : Solution K) (id : Nat) : Except (Fault K) K :=
  match s.values[id]? with
  | some x => .ok x
  | none => .error (.outOfRange id s.values.length)

/-- The row as an upper limit, with all signs turned for a lower one. -/
def Row.limits (r : Row K) : List (Constraint K) :=
  match r.bound.kind with
  | .fixed => []
  | _ =>
    (r.bound.ceiling?.toList.map fun u => { coefs := r.coefs, side := u }) ++
      r.bound.floor?.toList.map fun l =>
        { coefs := r.coefs.map fun (j, c) => (j, -c), side := -l }

def Row.equations (r : Row K) : List (Constraint K) :=
  match r.bound.kind with
  | .fixed => [{ coefs := r.coefs, side := r.bound.lo }]
  | _ => []

namespace Model

def positions {α : Type} (test : α → Bool) (xs : List α) : List Nat :=
  (xs.zipIdx.filter fun (x, _) => test x).map Prod.snd

def activeColumns (m : Model K) : List Nat := positions Column.isActive m.columns

def activeRows (m : Model K) : List Nat := positions (fun r => !r.relaxed) m.rows

/-- The column of an id from outside, where an id may be any integer. -/
def columnId (m : Model K) (id : Int) : Except (Fault K) Nat :=
  if 0 ≤ id ∧ id < m.columns.length then .ok id.toNat else .error (.unknownColumn id)

def rowId (m : Model K) (id : Int) : Except (Fault K) Nat :=
  if 0 ≤ id ∧ id < m.rows.length then .ok id.toNat else .error (.unknownRow id)

def column (m : Model K) (id : Nat) : Except (Fault K) (Column K) :=
  match m.columns[id]? with
  | some c => .ok c
  | none => .error (.unknownColumn id)

def row (m : Model K) (id : Nat) : Except (Fault K) (Row K) :=
  match m.rows[id]? with
  | some r => .ok r
  | none => .error (.unknownRow id)

def lastSolution (m : Model K) : Except (Fault K) (Solution K) :=
  match m.solution with
  | some s => .ok s
  | none => .error (.noSolution m.name)

def columnValue (m : Model K) (id : Nat) : Except (Fault K) K := do
  let _ ← m.column id
  let s ← m.lastSolution
  s.value id

def counts (m : Model K) (entry : Nat × K) : Bool :=
  !(entry.2 == 0) && (m.columns[entry.1]?.any Column.isActive)

def rowDegree (m : Model K) (id : Nat) : Except (Fault K) Nat := do
  let r ← m.row id
  return (r.coefs.filter m.counts).length

def rowValue (m : Model K) (id : Nat) : Except (Fault K) K := do
  let s ← m.lastSolution
  let r ← m.row id
  let terms ← r.coefs.mapM fun (j, c) => return c * (← s.value j)
  return Scalar.sum terms

/-- Unweighted sum of the active columns of a row. -/
def rowSum (m : Model K) (id : Nat) : Except (Fault K) K := do
  let s ← m.lastSolution
  let r ← m.row id
  let terms ← (r.coefs.filter m.counts).mapM fun (j, _) => s.value j
  return Scalar.sum terms

def objective (m : Model K) : Except (Fault K) K := return (← m.lastSolution).objective

def rename (name : String) : Edit K Unit := modify fun m => ({ m with name } : Model K)

def direct (direction : Direction) : Edit K Unit := modify fun m => ({ m with direction } : Model K)

/-- Upper and double bounds need an upper end, and a double bound must not be empty. -/
def addColumn (cost : K) (kind : BoundKind) (lo : K) (hi? : Option K) : Edit K Nat := do
  if hi?.isNone && (kind == .upper || kind == .double) then throw (.noUpperBound kind)
  let hi := hi?.getD 0
  if kind == .double && hi < lo then throw (.emptyColumnBound lo hi)
  let m ← get
  set ({ m with columns := m.columns ++ [{ cost, bound := { kind, lo, hi } }] } : Model K)
  return m.columns.length

/-- Rows may also be added after loading; they join the next solve. -/
def appendRow (r : Row K) : Edit K Nat := do
  let m ← get
  set ({ m with rows := m.rows ++ [r] } : Model K)
  return m.rows.length

def addRow (kind : BoundKind) (lo hi : K) : Edit K Nat := do
  if kind == .double && hi < lo then throw (.emptyRowBound lo hi)
  appendRow { bound := { kind, lo, hi } }

def addCoef (row column : Nat) (c : K) : Edit K Unit := do
  let m ← get
  let _ ← m.column column
  let r ← m.row row
  set ({ m with rows := m.rows.set row (r.addCoef column c) } : Model K)

def load : Edit K Unit := modify fun m => ({ m with loaded := true } : Model K)

/-- Keeps the name and the direction. -/
def clear : Edit K Unit :=
  modify fun m => ({ name := m.name, direction := m.direction } : Model K)

def fixColumn (id : Nat) (value : K) : Edit K Unit := do
  let m ← get
  let c ← m.column id
  match c.fixed with
  | some v => throw (.alreadyFixed id v)
  | none => set ({ m with columns := m.columns.set id { c with fixed := some value } } : Model K)

def relaxRow (id : Nat) : Edit K Unit := do
  let m ← get
  let r ← m.row id
  if r.relaxed then throw (.alreadyRelaxed id)
  set ({ m with rows := m.rows.set id { r with relaxed := true } } : Model K)

def keptRows (m : Model K) : List (Row K) := m.rows.filter fun r => !r.relaxed

/-- A system always minimises, so a cost to be maximised changes sign. -/
def signed (m : Model K) (x : K) : K :=
  match m.direction with
  | .minimize => x
  | .maximize => -x

def system (m : Model K) : System K :=
  { cost := m.columns.map fun c => m.signed c.cost
    bounds := m.columns.map Column.bounds
    atMost := m.keptRows.flatMap Row.limits
    equal := m.keptRows.flatMap Row.equations }

/-- Without columns every activity is zero, which each kept row must admit. -/
def admitsNothing (m : Model K) : Bool :=
  m.keptRows.all fun r =>
    !(r.bound.floor?.any fun l => 0 < l) && !(r.bound.ceiling?.any fun u => u < 0)

/-- Drops the last solution first, so that only an optimal answer leaves one. -/
def solve (solver : Solver K) : Edit K Status := do
  let m ← get
  if !m.loaded then throw .notLoaded
  let m := { m with solution := none }
  set m
  if m.columns.isEmpty then
    if m.admitsNothing then
      set ({ m with solution := some { values := [], objective := 0 } } : Model K)
      return .optimal
    else return .infeasible
  else
    match solver m.system with
    | .optimal values objective =>
      set ({ m with solution := some { values, objective := m.signed objective } } : Model K)
      return .optimal
    | .infeasible => return .infeasible
    | .unbounded => return .unbounded
    | .refused part => throw (.notFinite part)
    | .undecided => throw (.undecided m.name)

end Model

end LPRounding
