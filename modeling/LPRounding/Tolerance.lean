import LPRounding.Fault

/-!
Comparisons with one absolute tolerance. A problem owns a single tolerance, and every rounding,
relaxation and violation decision of a run is one of these five tests.
-/

namespace LPRounding

structure Tolerance (K : Type) where
  epsilon : K

namespace Tolerance

variable {K : Type} [Scalar K]

/-- Only a negative tolerance is refused. -/
def ofEpsilon (epsilon : K) : Except (Fault K) (Tolerance K) :=
  if epsilon < 0 then .error (.negativeEpsilon epsilon) else .ok ⟨epsilon⟩

variable (t : Tolerance K) (a b : K)

def equal : Bool := Scalar.abs (a - b) < t.epsilon

def above : Bool := b + t.epsilon < a

def atLeast : Bool := b - t.epsilon ≤ a

def below : Bool := a < b - t.epsilon

def atMost : Bool := a ≤ b + t.epsilon

end Tolerance

end LPRounding
