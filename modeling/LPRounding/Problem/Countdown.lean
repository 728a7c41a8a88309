import LPRounding.Run.Engine

/-!
A dependent problem over a number of elements that shrinks with every round. The model has one
column for each element that is left, all of them worth taking.
-/

namespace LPRounding

structure Countdown (K : Type) where
  tolerance : Tolerance K
  size : Int
  step : Int := 1
  /-- The size whose model no point satisfies. -/
  infeasibleAt : Option Int := none
  note : Option String := none
  /-- Size, columns and rows of each round. -/
  committed : List (Int × Nat × Nat) := []
  discards : Nat := 0

namespace Countdown

variable {K : Type} [Scalar K]

instance : Roundable (Countdown K) K where
  tolerance p := p.tolerance
  check := return (← Action.problem).note.map Issue.note
  discard p := { p with discards := p.discards + 1, committed := [] }

def model (p : Countdown K) : Model K :=
  let n := p.size.toNat
  { columns := (List.range n).map fun (i : Nat) =>
      { cost := Scalar.ofInt (-1 - (i : Int)), bound := { kind := .double, lo := 0, hi := 1 } }
    rows := if p.infeasibleAt = some p.size then
        [{ bound := { kind := .lower, lo := Scalar.ofInt (2 * p.size + 1), hi := 0 }
           coefs := (List.range n).map fun i => (i, 1) }]
      else []
    loaded := true }

def build : Action (Countdown K) K Unit := do
  let p ← Action.problem
  let m ← Action.model
  Action.setModel { p.model with name := m.name, direction := m.direction }

def shrink : Action (Countdown K) K Unit := do
  let m ← Action.model
  modify fun s => { s with problem := { s.problem with
    committed := s.problem.committed ++ [(s.problem.size, m.columns.length, m.rows.length)]
    size := s.problem.size - s.problem.step } }

def policies [Backend K] : Policies (Countdown K) K :=
  { init := build
    rounding := .wholePoint shrink
    solve := SolveRule.plain.apply
    resolve := SolveRule.plain.apply
    stop := return decide ((← Action.problem).size ≤ 0) }

end Countdown

end LPRounding
