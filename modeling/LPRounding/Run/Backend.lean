import LPRounding.LP.Solver
import LPRounding.Flow.Augment

/-!
What a run takes from outside: a solver for linear systems, a finder of maximum flows and an
allowance for loops that no count of their own ends.
-/

namespace LPRounding

class Backend (K : Type) where
  solver : Solver K
  flow : FlowFinder Site K
  passes : Nat

instance : Backend Float where
  solver := Solver.simplex
  flow := Augment.finder
  passes := 1000000000

end LPRounding
