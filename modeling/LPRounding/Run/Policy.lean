import LPRounding.Run.State

/-!
Policies: the decisions that the engine leaves open. A bundle picks one policy of each kind; the
general ones are given here, first as rules that can be written down and then as actions.
-/

namespace LPRounding

/-- How a run rounds: column by column, or by one step that reads the whole point and changes the
problem. -/
inductive Rounding (P K : Type) where
  | perColumn (rule : Nat → Action P K (Option K))
  | wholePoint (rule : Action P K Unit)

structure Policies (P K : Type) where
  init : Action P K Unit
  rounding : Rounding P K
  relax : Nat → Action P K Bool := fun _ => return false
  setSolution : Action P K Unit := return ()
  solve : Action P K Status
  resolve : Action P K Status
  stop : Action P K Bool
  /-- Whether a pass that has relaxed so many rows must end. -/
  limit : Nat → Bool := fun _ => false

inductive RoundRule (K : Type) where
  | equals (value : K)
  | half
  | never
  | always (value : K)
  | firstOf (rules : List (RoundRule K))
  /-- Drops a column at zero and commits one at a half or more. -/
  | commitHalf
  /-- Drops a column at zero and commits one at one. -/
  | commitOne
  deriving Inhabited

inductive RelaxRule where
  | never
  | always
  | rows (ids : List Int)
  | degreeAtMost (k : Int)

inductive StopRule where
  | allFixed
  | activeAtMost (k : Int)

inductive SolveRule where
  | plain
  | generating

inductive ResolveRule where
  | always (rule : SolveRule)
  /-- The first resolves are ordinary; later ones are infeasible and leave the model alone. -/
  | failAfter (n : Int) (rule : SolveRule)

variable {P K : Type} [Scalar K] [Backend K] [Roundable P K]

namespace RoundRule

/-- Zero is asked for first, so it wins where both are within the tolerance. -/
def zeroThenOne : RoundRule K := .firstOf [.equals 0, .equals 1]

def tolerance : Action P K (Tolerance K) := return Roundable.tolerance (← Action.problem)

def atValue (value : K) (column : Nat) : Action P K (Option K) := do
  let x ← (← Action.model).columnValue column
  return if (← tolerance).equal x value then some value else none

def atHalf (column : Nat) : Action P K (Option K) := do
  let x ← (← Action.model).columnValue column
  return if (← tolerance).atLeast x Scalar.half then some 1 else none

/-- Zero wins; a column that passes the second rule is committed. -/
def committing (take : Nat → Action P K (Option K)) (column : Nat) : Action P K (Option K) := do
  match ← atValue 0 column with
  | some value => return some value
  | none =>
    let value ← take column
    if value.isSome then Roundable.commit column
    return value

mutual

def apply : RoundRule K → Nat → Action P K (Option K)
  | .equals value, column => atValue value column
  | .half, column => atHalf column
  | .never, _ => return none
  | .always value, _ => return some value
  | .firstOf rules, column => applyFirst rules column
  | .commitHalf, column => committing atHalf column
  | .commitOne, column => committing (atValue 1) column

def applyFirst : List (RoundRule K) → Nat → Action P K (Option K)
  | [], _ => return none
  | rule :: rest, column => do
    match ← rule.apply column with
    | some value => return some value
    | none => applyFirst rest column

end

mutual

def isComplete : RoundRule K → Bool
  | .firstOf rules => !rules.isEmpty && allComplete rules
  | _ => true

def allComplete : List (RoundRule K) → Bool
  | [] => true
  | rule :: rest => rule.isComplete && allComplete rest

end

end RoundRule

def RelaxRule.apply : RelaxRule → Nat → Action P K Bool
  | .never, _ => return false
  | .always, _ => return true
  | .rows ids, row => return ids.contains (row : Int)
  | .degreeAtMost k, row => do
    let degree ← (← Action.model).rowDegree row
    return decide ((degree : Int) ≤ k)

def StopRule.apply : StopRule → Action P K Bool
  | .allFixed => return (← Action.model).activeColumns.isEmpty
  | .activeAtMost k => return decide (((← Action.model).activeColumns.length : Int) ≤ k)

def relaxationLimit : Option Int → Except (Fault K) (Nat → Bool)
  | none => .ok fun _ => false
  | some k => if k < 1 then .error (.limitNotPositive k) else .ok fun relaxed => k ≤ relaxed

/-- Adds violated rows and solves again until no constraint is violated or the model has no
optimal point. -/
def generateRows : Nat → Status → Action P K Status
  | 0, .optimal => throw .unfinished
  | passes + 1, .optimal => do
    if ← Roundable.feasible then return .optimal
    let _ ← Roundable.separate
    generateRows passes (← Action.solveModel)
  | _, status => do
    Action.note (.generationStopped status)
    return status

def SolveRule.apply : SolveRule → Action P K Status
  | .plain => Action.solveModel
  | .generating => do generateRows (Backend.passes K) (← Action.solveModel)

def ResolveRule.apply : ResolveRule → Action P K Status
  | .always rule => rule.apply
  | .failAfter n rule => do
    let s ← get
    if (s.resolves : Int) < n then
      set { s with resolves := s.resolves + 1 }
      rule.apply
    else return .infeasible

/-- Rules that replace policies of a bundle; what is not named stays. -/
structure Choices (K : Type) where
  round : Option (RoundRule K) := none
  relax : Option RelaxRule := none
  limit : Option (Option Int) := none
  stop : Option StopRule := none
  solve : Option SolveRule := none
  resolve : Option ResolveRule := none

/-- The first rule that cannot be made decides the failure. -/
def Policies.replace (p : Policies P K) (c : Choices K) :
    Except (Fault K) (Policies P K) := do
  if !(c.round.all RoundRule.isComplete) then throw .noConditions
  let limit ← match c.limit with
    | some k => relaxationLimit k
    | none => pure p.limit
  return { p with
    rounding := c.round.elim p.rounding fun rule => .perColumn rule.apply
    relax := c.relax.elim p.relax RelaxRule.apply
    limit
    stop := c.stop.elim p.stop StopRule.apply
    solve := c.solve.elim p.solve SolveRule.apply
    resolve := c.resolve.elim p.resolve ResolveRule.apply }

end LPRounding
