import LPRounding.Run.Policy

/-!
The rounding engine. It solves the model, then fixes columns, or relaxes rows where no column could
be fixed, and solves again, until the stop policy holds. A dependent run changes the problem instead
and builds its model anew each time.
-/

namespace LPRounding

structure Outcome (K : Type) where
  status : Status
  objective : Option K

variable {P K : Type} [Scalar K] [Roundable P K]

namespace Engine

def report (status : Status) : Action P K Unit := do
  let m ← Action.model
  Action.note (.solved m.name status (m.solution.map Solution.objective) m.columns.length
    m.rows.length)

def solve (p : Policies P K) : Action P K Status := do
  let status ← p.solve
  report status
  return status

def resolve (p : Policies P K) : Action P K Status := do
  let status ← p.resolve
  report status
  return status

def roundColumns (rule : Nat → Action P K (Option K)) : List Nat → Nat → Action P K Nat
  | [], rounded => return rounded
  | column :: rest, rounded => do
    match ← rule column with
    | none => roundColumns rule rest rounded
    | some value =>
      Action.onModel (Model.fixColumn column value)
      Action.note (.rounded column value)
      roundColumns rule rest (rounded + 1)

/-- One pass over the columns that are active when it starts, by ascending id. -/
def round (p : Policies P K) : Action P K Nat := do
  match (← Action.model).activeColumns, p.rounding with
  | columns, .perColumn rule => roundColumns rule columns 0
  | [], .wholePoint _ => return 0
  | _, .wholePoint _ => throw .wrongRounding

/-- Asks the policy about each row in turn until the limit is reached. -/
def relaxRows (p : Policies P K) : List Nat → Nat → Action P K Nat
  | [], relaxed => return relaxed
  | row :: rest, relaxed => do
    if p.limit relaxed then return relaxed
    if ← p.relax row then
      Action.onModel (Model.relaxRow row)
      Action.note (.relaxed row)
      relaxRows p rest (relaxed + 1)
    else relaxRows p rest relaxed

def relax (p : Policies P K) : Action P K Nat := do
  relaxRows p (← Action.model).activeRows 0

def dependentRound (p : Policies P K) : Action P K Unit := do
  match p.rounding with
  | .perColumn _ => throw .wrongRounding
  | .wholePoint rule =>
    rule
    Action.onModel Model.clear
    p.init

def giveUp : Action P K (Outcome K) := do
  modify fun s => { s with problem := Roundable.discard s.problem }
  return { status := .infeasible, objective := none }

def finish (p : Policies P K) : Action P K (Outcome K) := do
  p.setSolution
  let m ← Action.model
  let objective ← m.objective
  Action.note (.finished m.name (← get).iterations objective)
  return { status := .optimal, objective := some objective }

def beginIteration : Action P K Nat := do
  modify fun s => { s with iterations := s.iterations + 1 }
  return (← get).iterations

/-- One iteration of a plain run: a round pass, a relax pass if that fixed nothing, a resolve. -/
def iterate (p : Policies P K) : Action P K Status := do
  let iteration ← beginIteration
  let rounded ← round p
  let relaxed ← if rounded = 0 then relax p else pure 0
  Action.note (.iterated iteration rounded relaxed)
  if rounded = 0 ∧ relaxed = 0 then
    let m ← Action.model
    throw (.stuck iteration m.name m.activeColumns.length m.activeRows.length)
  resolve p

def iterateDependent (p : Policies P K) : Action P K Status := do
  let iteration ← beginIteration
  dependentRound p
  let m ← Action.model
  Action.note (.rebuilt iteration m.name m.columns.length)
  resolve p

/-- Iterates until the stop policy holds or a resolve has no optimal point. -/
def loop (p : Policies P K) (step : Action P K Status) : Nat → Action P K (Outcome K)
  | 0 => throw .unfinished
  | passes + 1 => do
    if ← p.stop then finish p
    else
      match ← step with
      | .optimal => loop p step passes
      | status =>
        Action.note (.lost (← Action.model).name status (← get).iterations)
        giveUp

def start [Backend K] (p : Policies P K) (step : Action P K Status) : Action P K (Outcome K) := do
  match ← solve p with
  | .optimal => loop p step (Backend.passes K)
  | status =>
    Action.note (.notSolved (← Action.model).name status)
    giveUp

def run [Backend K] (p : Policies P K) : Action P K (Outcome K) := start p (iterate p)

def runDependent [Backend K] (p : Policies P K) : Action P K (Outcome K) :=
  start p (iterateDependent p)

def checkInput : Action P K Unit := do
  match ← Roundable.check (P := P) with
  | some issue => throw (.invalidInput issue)
  | none => return ()

def solveProblem [Backend K] (p : Policies P K) : Action P K (Outcome K) := do
  checkInput
  p.init
  run p

def solveDependentProblem [Backend K] (p : Policies P K) : Action P K (Outcome K) := do
  checkInput
  p.init
  runDependent p

end Engine

end LPRounding
