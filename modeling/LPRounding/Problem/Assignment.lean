import LPRounding.Run.Engine

/-!
Generalised assignment: every job goes to one machine, and each machine has time for the jobs it
gets, up to one job more. Columns are numbered job by job, each with all machines in order; the rows
of the jobs come before those of the machines.
-/

namespace LPRounding

structure Assignment (K : Type) where
  tolerance : Tolerance K
  machines : List Node
  jobs : List Node
  cost : Node → Node → K
  time : Node → Node → K
  budget : Node → K
  /-- Machine of each job, in the order in which jobs were first given one. -/
  result : List (Node × Node) := []

namespace Assignment

variable {K : Type} [Scalar K]

def give (job machine : Node) : List (Node × Node) → List (Node × Node)
  | [] => [(job, machine)]
  | (j, m) :: rest =>
    if j = job then (j, machine) :: rest else (j, m) :: give job machine rest

def giveAll (entries : List (Node × Node)) : List (Node × Node) :=
  entries.foldl (fun result (j, m) => give j m result) []

/-- Numbers written in tables by job and machine; a name stands for its first place. No number
that a model needs may be missing. -/
def ofTables (epsilon : K) (machines jobs : List Node) (cost time : List (List K))
    (budget : List K) (result : List (Node × Node)) : Except (Fault K) (Assignment K) := do
  let tolerance ← Tolerance.ofEpsilon epsilon
  let read (table : List (List K)) (j m : Node) : Option K := do
    (← table[jobs.idxOf j]?)[machines.idxOf m]?
  let limit (m : Node) : Option K := budget[machines.idxOf m]?
  let isComplete := machines.all fun m => (limit m).isSome && jobs.all fun j =>
    (read cost j m).isSome && (read time j m).isSome
  if !isComplete then throw .noEntry
  return { tolerance, machines, jobs, cost := fun j m => (read cost j m).getD 0
           time := fun j m => (read time j m).getD 0
           budget := fun m => (limit m).getD 0, result := giveAll result }

instance : Roundable (Assignment K) K where
  tolerance p := p.tolerance

variable (p : Assignment K)

def index (j m : Int) : Int := j * p.machines.length + m

/-- The place of the job of a column; without machines there are no columns to ask about. -/
def jobIndex (i : Int) : Except (Fault K) Int :=
  if p.machines.isEmpty then .error .noMachines else .ok (i.fdiv p.machines.length)

def machineIndex (i : Int) : Except (Fault K) Int :=
  if p.machines.isEmpty then .error .noMachines else .ok (i.fmod p.machines.length)

def pairs : List (Node × Node) := p.jobs.flatMap fun j => p.machines.map fun m => (j, m)

/-- A job that is too long for a machine never goes there. -/
def column (j m : Node) : Column K :=
  if p.time j m ≤ p.budget m then
    { cost := p.cost j m, bound := { kind := .lower, lo := 0, hi := 0 } }
  else { cost := p.cost j m, bound := { kind := .fixed, lo := 0, hi := 0 } }

def jobRow (j : Nat) : Row K :=
  { bound := { kind := .fixed, lo := 1, hi := 1 }
    coefs := (List.range p.machines.length).map fun m => (j * p.machines.length + m, 1) }

def machineRow (i : Nat) (m : Node) : Row K :=
  { bound := { kind := .upper, lo := 0, hi := p.budget m }
    coefs := p.jobs.zipIdx.map fun (j, k) => (k * p.machines.length + i, 0 + p.time j m) }

def model : Model K :=
  { name := "generalised assignment"
    columns := p.pairs.map fun (j, m) => p.column j m
    rows := (List.range p.jobs.length).map p.jobRow ++
      p.machines.zipIdx.map fun (m, i) => p.machineRow i m
    loaded := true }

def isMachineRow (row : Nat) : Bool :=
  p.jobs.length ≤ row && row < p.jobs.length + p.machines.length

variable {p}

def build : Action (Assignment K) K Unit := do Action.setModel (← Action.problem).model

/-- A machine row may go when one job of it is still open, or two that together make a job. -/
def relaxable (row : Nat) : Action (Assignment K) K Bool := do
  let p ← Action.problem
  if !p.isMachineRow row then return false
  let m ← Action.model
  let degree ← m.rowDegree row
  if degree ≤ 1 then return true
  if degree = 2 then return p.tolerance.atLeast (← m.rowSum row) 1
  return false

def assign (column : Nat) (j m : Node) : Action (Assignment K) K Unit := do
  let x ← (← Action.model).columnValue column
  modify fun s =>
    if s.problem.tolerance.equal x 1 then
      { s with problem := { s.problem with result := give j m s.problem.result } }
    else s

def readAnswer : Action (Assignment K) K Unit := do
  (← Action.problem).pairs.zipIdx.forM fun ((j, m), column) => assign column j m

def policies [Backend K] : Policies (Assignment K) K :=
  { init := build
    rounding := .perColumn RoundRule.zeroThenOne.apply
    relax := relaxable
    setSolution := readAnswer
    solve := SolveRule.plain.apply
    resolve := SolveRule.plain.apply
    stop := StopRule.allFixed.apply }

end Assignment

end LPRounding
