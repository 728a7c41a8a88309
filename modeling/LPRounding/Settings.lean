import LPRounding.Tolerance

/-!
Settings shared by all problems of a program: the tolerance, the solving method and the search
strategy used where an instance names none.
-/

namespace LPRounding

structure Settings (K : Type) where
  epsilon : K
  method : String := "highs-ds"
  strategy : String := "random"

namespace Settings

def standard : Settings Float := { epsilon := 1e-10 }

variable {K : Type} [Scalar K]

/-- Settings that a user writes down are refused when their tolerance is negative. -/
def validate (s : Settings K) : Except (Fault K) (Settings K) :=
  if s.epsilon < 0 then .error (.negativeEpsilon s.epsilon) else .ok s

def tolerance (s : Settings K) (own : Option K) : Except (Fault K) (Tolerance K) :=
  Tolerance.ofEpsilon (own.getD s.epsilon)

end Settings

end LPRounding
