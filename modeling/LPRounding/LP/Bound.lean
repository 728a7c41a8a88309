import LPRounding.Scalar
import LPRounding.Names

/-!
Bounds on the value of a column or the activity of a row.
-/

namespace LPRounding

inductive BoundKind where
  | free
  | lower
  | upper
  | double
  | fixed
  deriving DecidableEq, Repr

instance : Named BoundKind where
  members := [.free, .lower, .upper, .double, .fixed]
  name
    | .free => "FR"
    | .lower => "LO"
    | .upper => "UP"
    | .double => "DB"
    | .fixed => "FX"
  subject := "BoundType"

/-- The ends that the kind does not use are kept, and mean nothing. -/
structure Bound (K : Type) where
  kind : BoundKind
  lo : K
  hi : K

namespace Bound

variable {K : Type}

def floor? (b : Bound K) : Option K :=
  match b.kind with
  | .free | .upper => none
  | .lower | .double | .fixed => some b.lo

/-- A fixed bound holds the value at its lower end. -/
def ceiling? (b : Bound K) : Option K :=
  match b.kind with
  | .free | .lower => none
  | .upper | .double => some b.hi
  | .fixed => some b.lo

def Admits [Scalar K] (b : Bound K) (x : K) : Prop :=
  match b.kind with
  | .free => True
  | .lower => b.lo ≤ x
  | .upper => x ≤ b.hi
  | .double => b.lo ≤ x ∧ x ≤ b.hi
  | .fixed => x = b.lo

end Bound

end LPRounding
