import LPRounding.Scalar

/-!
Sums of long lists in a balanced order, in which rounding errors stay small: short lists are added
in eight lanes side by side, and longer ones are halved. In exact arithmetic the order does not
matter.
-/

namespace LPRounding.Scalar

variable {K : Type} [Scalar K]

/-- Goes on with eight sums side by side, joins them, and adds what is left over. -/
def inLanes (a b c d e f g h : K) : List K → K
  | p :: q :: r :: s :: t :: u :: v :: w :: rest =>
    inLanes (a + p) (b + q) (c + r) (d + s) (e + t) (f + u) (g + v) (h + w) rest
  | rest => rest.foldl (· + ·) (((a + b) + (c + d)) + ((e + f) + (g + h)))

def blockSum : List K → K
  | a :: b :: c :: d :: e :: f :: g :: h :: rest => inLanes a b c d e f g h rest
  | xs => sum xs

def blockLength : Nat := 128

/-- Halves are cut at a whole number of lanes. -/
def balancedSum (xs : List K) : K :=
  if blockLength < xs.length then
    let half := xs.length / 2 - xs.length / 2 % 8
    balancedSum (xs.take half) + balancedSum (xs.drop half)
  else blockSum xs
termination_by xs.length
decreasing_by
  all_goals
    simp only [blockLength, List.length_take, List.length_drop] at *
    omega

end LPRounding.Scalar
