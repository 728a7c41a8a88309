import LPRounding.Run.Event
import LPRounding.Run.Backend
import LPRounding.Tolerance

/-!
The state of a run: the problem, its model and the events so far. An action changes the state and
may fail; what it changed before it failed stays.
-/

namespace LPRounding

structure Run (P K : Type) where
  problem : P
  lp : Model K := {}
  trace : List (Event K) := []
  iterations : Nat := 0
  /-- Resolves made by a policy that counts them. -/
  resolves : Nat := 0

abbrev Action (P K : Type) := EStateM (Fault K) (Run P K)

namespace Action

variable {P K α : Type}

def note (e : Event K) : Action P K Unit :=
  modify fun s => { s with trace := s.trace ++ [e] }

def onModel (edit : Edit K α) : Action P K α := fun s =>
  match edit s.lp with
  | .ok a lp => .ok a { s with lp }
  | .error e lp => .error e { s with lp }

def onProblem (change : EStateM (Fault K) P α) : Action P K α := fun s =>
  match change s.problem with
  | .ok a problem => .ok a { s with problem }
  | .error e problem => .error e { s with problem }

def problem : Action P K P := return (← get).problem

def model : Action P K (Model K) := return (← get).lp

def setModel (lp : Model K) : Action P K Unit := modify fun s => { s with lp }

/-- Solves the model. A model without columns is answered without a report. -/
def solveModel [Scalar K] [Backend K] : Action P K Status := do
  let status ← onModel (Model.solve Backend.solver)
  let m ← model
  if !m.columns.isEmpty then
    match status, m.solution with
    | .optimal, some s =>
      note (.modelSolved m.name m.columns.length m.keptRows.length s.objective)
    | _, _ => note (.modelFailed m.name status)
  return status

end Action

/-- What the engine needs to know about a problem. -/
class Roundable (P : Type) (K : outParam Type) where
  tolerance : P → Tolerance K
  /-- The reason why the instance cannot be solved, if there is one. -/
  check : Action P K (Option (Issue K)) := return none
  /-- Withdraws what a run without an answer has committed. -/
  discard : P → P := id
  /-- Takes the element of a column into the answer. -/
  commit : Nat → Action P K Unit := fun _ => throw .noCommitment
  /-- Whether no constraint outside the model is violated at the current point. -/
  feasible : Action P K Bool := return true
  /-- Adds the constraint that was found violated, and gives its row. -/
  separate : Action P K Nat := throw .noViolation

end LPRounding
