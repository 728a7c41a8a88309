import LPRounding.Run.Engine
import LPRounding.LP.Script

/-!
A linear program that is rounded as it stands.
-/

namespace LPRounding

structure ColumnText (K : Type) where
  cost : K
  bound : String
  lo : K
  hi : Option K

structure RowText (K : Type) where
  bound : String
  lo : K
  hi : K
  coefs : List (Int × K)

structure Explicit (K : Type) where
  tolerance : Tolerance K
  name : String
  direction : Direction
  columns : List (ColumnText K)
  rows : List (RowText K)
  /-- What the input check says, if anything. -/
  note : Option String
  discards : Nat := 0

namespace Explicit

variable {K : Type} [Scalar K]

instance : Roundable (Explicit K) K where
  tolerance p := p.tolerance
  check := return (← Action.problem).note.map Issue.note
  discard p := { p with discards := p.discards + 1 }

def columnCommand (c : ColumnText K) : Except (Fault K) (Command K) :=
  return .addColumn c.cost (← Named.parse c.bound) c.lo c.hi

def rowCommands (row : Nat) (r : RowText K) : List (Except (Fault K) (Command K)) :=
  (return .addRow (← Named.parse r.bound) r.lo r.hi) ::
    r.coefs.map fun (j, c) => .ok (.addCoef row j c)

/-- Columns first, then each row with its coefficients. -/
def commands (p : Explicit K) : List (Except (Fault K) (Command K)) :=
  [.ok (.rename p.name), .ok (.direct p.direction)] ++ p.columns.map columnCommand ++
    (p.rows.zipIdx.flatMap fun (r, i) => rowCommands i r) ++ [.ok .load]

/-- The name of a bound is read when its turn has come. -/
def build [Backend K] : Action (Explicit K) K Unit := do
  (← Action.problem).commands.forM fun command => do
    let _ ← Action.onModel (Model.run Backend.solver (← command))

def policies [Backend K] : Policies (Explicit K) K :=
  { init := build
    rounding := .perColumn RoundRule.zeroThenOne.apply
    solve := SolveRule.plain.apply
    resolve := SolveRule.plain.apply
    stop := StopRule.allFixed.apply }

end Explicit

end LPRounding
