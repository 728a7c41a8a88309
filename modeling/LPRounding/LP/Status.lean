import LPRounding.Names

/-!
Which way a model is optimised, and how a solve of it ends.
-/

namespace LPRounding

inductive Direction where
  | minimize
  | maximize
  deriving DecidableEq, Repr

instance : Named Direction where
  members := [.minimize, .maximize]
  name
    | .minimize => "MINIMIZE"
    | .maximize => "MAXIMIZE"
  subject := "OptimizationType"

inductive Status where
  | optimal
  | infeasible
  | unbounded
  deriving DecidableEq, Repr

instance : Named Status where
  members := [.optimal, .infeasible, .unbounded]
  name
    | .optimal => "OPTIMAL"
    | .infeasible => "INFEASIBLE"
    | .unbounded => "UNBOUNDED"
  subject := "ProblemType"

end LPRounding
