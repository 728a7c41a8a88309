import LPRounding.Decimal.Binary

/-!
The numbers that models, networks and tolerances are computed with. Binary floating point runs the
program; an ordered field gives the same definitions in exact arithmetic.
-/

namespace LPRounding

class Scalar (K : Type) extends Zero K, One K, Add K, Sub K, Mul K, Neg K, LT K, LE K, BEq K where
  ofInt : Int → K
  half : K
  /-- Holds of the values that stand for "no bound"; an exact type has none. -/
  isInfinite : K → Bool
  /-- What a missing distance costs: infinitely much, in a type that can say so. -/
  top : K
  /-- Holds of the values that can be entries of a linear system. -/
  isFinite : K → Bool
  /-- The integer part, cut off towards zero; a value that is not finite has none. -/
  whole : K → Option Int
  ltDecidable : DecidableLT K
  leDecidable : DecidableLE K

namespace Scalar

variable {K : Type} [Scalar K]

instance : DecidableLT K := ltDecidable
instance : DecidableLE K := leDecidable

/-- Keeps the first argument unless the second is strictly larger. -/
def larger (a b : K) : K := if a < b then b else a

/-- Keeps the first argument unless the second is strictly smaller. -/
def smaller (a b : K) : K := if b < a then b else a

/-- A value that differs from itself is no number. -/
def isUndefined (a : K) : Bool := !(a == a)

def abs (a : K) : K := if a < 0 then -a else a

def sum (xs : List K) : K := xs.foldl (· + ·) 0

def largest (default : K) : List K → K
  | [] => default
  | x :: xs => xs.foldl larger x

end Scalar

instance : Scalar Float where
  ofInt := Float.ofInt
  half := 0.5
  isInfinite := Float.isInf
  top := 1.0 / 0.0
  isFinite := Float.isFinite
  whole x := (Decimal.Binary.ofFloat x).whole?
  ltDecidable := inferInstance
  leDecidable := inferInstance

end LPRounding
