import LPRounding.Fault

/-!
The linear systems that a solver is given: minimise a cost over column bounds, `atMost` rows and
`equal` rows. `System.Feasible` says which points a system admits.
-/

namespace LPRounding

structure Constraint (K : Type) where
  coefs : List (Nat × K)
  side : K

structure System (K : Type) where
  cost : List K
  bounds : List (Option K × Option K)
  atMost : List (Constraint K)
  equal : List (Constraint K)

/-- What a solver says about a system; it may refuse one whose numbers it cannot read, and may not
come to an answer. -/
inductive Verdict (K : Type) where
  | optimal (values : List K) (objective : K)
  | infeasible
  | unbounded
  | refused (part : SystemPart)
  | undecided

abbrev Solver (K : Type) := System K → Verdict K

variable {K : Type} [Scalar K]

/-- Coefficient-weighted sum of the values; a column without a value counts as zero. -/
def weigh (coefs : List (Nat × K)) (values : List K) : K :=
  Scalar.sum (coefs.map fun (j, c) => c * values.getD j 0)

def System.objective (s : System K) (values : List K) : K :=
  Scalar.sum (List.zipWith (· * ·) s.cost values)

def Within (b : Option K × Option K) (x : K) : Prop :=
  (∀ l, b.1 = some l → l ≤ x) ∧ (∀ u, b.2 = some u → x ≤ u)

structure System.Feasible (s : System K) (values : List K) : Prop where
  length : values.length = s.bounds.length
  bounds : ∀ (j : Nat) b x, s.bounds[j]? = some b → values[j]? = some x → Within b x
  atMost : ∀ c ∈ s.atMost, weigh c.coefs values ≤ c.side
  equal : ∀ c ∈ s.equal, weigh c.coefs values = c.side

end LPRounding
