import LPRounding.Proofs.LP.Prices

/-!
What a solve hands over. The matrices, sides, bounds and costs that a solver is given admit exactly
the points of the model, and the least cost there is, up to the sign, the optimum of the model in
its direction. A model without columns has its own path, which comes to the same.
-/

namespace LPRounding

open Matrix

set_option linter.unusedSectionVars false

variable {K : Type} [Field K] [LinearOrder K] [IsStrictOrderedRing K] [FloorRing K]

/-- The coefficients of some constraints; what is listed twice for a column is added up. -/
def matrix (cs : List (Constraint K)) (n : Nat) : Matrix (Fin cs.length) (Fin n) K :=
  .of fun i j => coefAt cs[i].coefs j

def bounding (cs : List (Constraint K)) : Fin cs.length → K := fun i => cs[i].side

/-- The best of some costs. -/
def Direction.Best : Direction → Set K → K → Prop
  | .minimize, costs, c => IsLeast costs c
  | .maximize, costs, c => IsGreatest costs c

namespace System

variable {n : Nat}

/-- The point is within the column bounds, at most at the sides of the first matrix and at the sides
of the second. -/
structure Satisfied (s : System K) (x : Fin n → K) : Prop where
  bounds : ∀ (j : Fin n) b, s.bounds[(j : Nat)]? = some b → Within b (x j)
  atMost : matrix s.atMost n *ᵥ x ≤ bounding s.atMost
  equal : matrix s.equal n *ᵥ x = bounding s.equal

def costs (s : System K) (n : Nat) : Fin n → K := fun j => s.cost.getD j 0

end System

theorem getD_ofFn {n : Nat} (x : Fin n → K) (j : Fin n) : (List.ofFn x).getD j 0 = x j := by
  simp [List.getD_eq_getElem?_getD]

theorem matrix_mulVec (cs : List (Constraint K)) {n : Nat} (x : Fin n → K) (i : Fin cs.length) :
    (matrix cs n *ᵥ x) i = weigh cs[i].coefs (List.ofFn x) := by
  rw [weigh_eq_weights, weights_eq_sum, List.length_ofFn, Finset.sum_range]
  simp only [getD_ofFn]
  rfl

theorem matrix_le_iff {cs : List (Constraint K)} {n : Nat} {x : Fin n → K} :
    matrix cs n *ᵥ x ≤ bounding cs ↔ ∀ c ∈ cs, weigh c.coefs (List.ofFn x) ≤ c.side := by
  simp only [Pi.le_def, matrix_mulVec, bounding, List.forall_mem_iff_getElem, Fin.forall_iff,
    Fin.getElem_fin]

theorem matrix_eq_iff {cs : List (Constraint K)} {n : Nat} {x : Fin n → K} :
    matrix cs n *ᵥ x = bounding cs ↔ ∀ c ∈ cs, weigh c.coefs (List.ofFn x) = c.side := by
  simp only [funext_iff, matrix_mulVec, bounding, List.forall_mem_iff_getElem, Fin.forall_iff,
    Fin.getElem_fin]

namespace System

variable {s : System K}

theorem satisfied_iff {n : Nat} {x : Fin n → K} (hn : n = s.bounds.length) :
    s.Satisfied x ↔ s.Feasible (List.ofFn x) := by
  constructor
  · rintro ⟨hbounds, hatMost, hequal⟩
    refine ⟨by rw [List.length_ofFn, hn], fun j b v hb hv => ?_, matrix_le_iff.mp hatMost,
      matrix_eq_iff.mp hequal⟩
    obtain ⟨hj, rfl⟩ := List.getElem?_eq_some_iff.mp hv
    rw [List.getElem_ofFn]
    exact hbounds ⟨j, by simpa using hj⟩ b hb
  · rintro ⟨-, hbounds, hatMost, hequal⟩
    exact ⟨fun j b hb => hbounds j b (x j) hb (by simp), matrix_le_iff.mpr hatMost,
      matrix_eq_iff.mpr hequal⟩

theorem sum_getD_mul (cs : List K) {n : Nat} (x : Fin n → K) :
    ∑ j : Fin n, cs.getD j 0 * x j = (List.zipWith (· * ·) cs (List.ofFn x)).sum := by
  induction cs generalizing n with
  | nil => simp
  | cons c cs ih =>
    cases n with
    | zero => simp
    | succ n =>
      rw [Fin.sum_univ_succ, List.ofFn_succ, List.zipWith_cons_cons, List.sum_cons, ← ih]
      rfl

theorem costs_dotProduct (s : System K) {n : Nat} (x : Fin n → K) :
    s.costs n ⬝ᵥ x = s.objective (List.ofFn x) := by
  rw [objective, Scalar.sum_eq, ← sum_getD_mul]
  rfl

end System

namespace Model

variable {m m' : Model K} {solver : Solver K}

theorem bounds_length (m : Model K) : m.columns.length = m.system.bounds.length := by
  simp [system]

theorem satisfied_iff_admits {x : Fin m.columns.length → K} :
    m.system.Satisfied x ↔ m.Admits (List.ofFn x) := by
  rw [System.satisfied_iff m.bounds_length, feasible_iff_admits]

theorem image_costs (m : Model K) :
    (m.system.costs m.columns.length ⬝ᵥ ·) '' {x | m.system.Satisfied x} =
      m.signed '' (m.costOf '' {x | m.Admits x}) := by
  ext c
  simp only [Set.mem_image, Set.mem_ofPred_eq, exists_exists_and_eq_and,
    System.costs_dotProduct, objective_system]
  constructor
  · rintro ⟨x, hx, rfl⟩
    exact ⟨_, satisfied_iff_admits.mp hx, rfl⟩
  · rintro ⟨x, hx, rfl⟩
    have hlength : x.length = m.system.bounds.length := hx.length.trans m.bounds_length
    obtain ⟨y, rfl⟩ : ∃ y : Fin m.columns.length → K, List.ofFn y = x := by
      rw [bounds_length]
      exact ⟨_, System.ofFn_getD hlength⟩
    exact ⟨y, satisfied_iff_admits.mpr hx, rfl⟩

theorem isLeast_signed (m : Model K) (costs : Set K) (c : K) :
    IsLeast (m.signed '' costs) c ↔ m.direction.Best costs (m.signed c) := by
  unfold signed
  cases m.direction with
  | minimize => simp [Direction.Best]
  | maximize =>
    simp only [Set.image_neg_eq_neg, Direction.Best, IsLeast, IsGreatest, Set.mem_neg]
    exact and_congr_right fun _ => ⟨fun h x hx => le_neg.mp (h (Set.neg_mem_neg.mpr hx)),
      fun h x hx => neg_le_neg_iff.mp (h hx)⟩

theorem returns_solve_optimal (hl : m.loaded = true) (hc : m.columns ≠ []) {x : List K} {c : K}
    (h : solver m.system = .optimal x c) : Returns (solve solver) m .optimal
      { m with solution := some { values := x, objective := m.signed c } } := by
  have h : solver { m with solution := none }.system = .optimal x c := h
  unfold solve
  refine returns_bind.mpr ⟨m, m, returns_get.mpr ⟨rfl, rfl⟩, ?_⟩
  rw [if_neg (by simp [hl])]
  refine returns_bind.mpr ⟨⟨⟩, _, returns_set.mpr rfl, ?_⟩
  rw [if_neg (by simpa using hc), h]
  exact returns_bind.mpr ⟨⟨⟩, _, returns_set.mpr rfl, returns_pure.mpr ⟨rfl, rfl⟩⟩

theorem admits_nil_iff (hc : m.columns = []) : m.Admits [] ↔ m.admitsNothing = true :=
  ⟨admitsNothing_of_admits hc, admits_nil hc⟩

theorem solve_nil (hl : m.loaded = true) (hc : m.columns = []) : solve solver m =
    if m.admitsNothing then
      .ok .optimal { m with solution := some { values := [], objective := 0 } }
    else .ok .infeasible { m with solution := none } := by
  have hget : Returns (get : Edit K (Model K)) m m m := returns_get.mpr ⟨rfl, rfl⟩
  have hset : Returns (set { m with solution := none } : Edit K PUnit) m ⟨⟩
      { m with solution := none } := returns_set.mpr rfl
  have hsame : ({ m with solution := none } : Model K).admitsNothing = m.admitsNothing := rfl
  unfold solve
  rw [hget.bind_apply, if_neg (by simp [hl])]
  dsimp only
  rw [hset.bind_apply, if_pos (by simpa using hc), hsame]
  by_cases ha : m.admitsNothing
  · rw [if_pos ha, if_pos ha]
    rfl
  · rw [if_neg ha, if_neg ha]
    rfl

end Model

/-- The solver is given the points of the model in matrices, and costs whose least value, signed
again, is the optimum of the model. -/
theorem Model.solve_translates (m : Model K) :
    (∀ x : Fin m.columns.length → K, m.system.Satisfied x ↔ m.Admits (List.ofFn x)) ∧
    (∀ c, IsLeast ((m.system.costs m.columns.length ⬝ᵥ ·) '' {x | m.system.Satisfied x}) c ↔
      m.direction.Best (m.costOf '' {x | m.Admits x}) (m.signed c)) ∧
    ∀ solver, m.loaded = true →
      (∀ x c, m.columns ≠ [] → solver m.system = .optimal x c → Returns (solve solver) m .optimal
        { m with solution := some { values := x, objective := m.signed c } }) ∧
      (m.columns = [] →
        (m.Admits [] → Returns (solve solver) m .optimal
          { m with solution := some { values := [], objective := 0 } }) ∧
        (¬ m.Admits [] → Returns (solve solver) m .infeasible { m with solution := none })) := by
  refine ⟨fun x => satisfied_iff_admits, fun c => by rw [image_costs, isLeast_signed],
    fun solver hl => ⟨fun x c hc h => returns_solve_optimal hl hc h, fun hc => ?_⟩⟩
  rw [admits_nil_iff hc]
  constructor
  · intro ha
    rw [Returns, solve_nil hl hc, if_pos ha]
  · intro ha
    rw [Returns, solve_nil hl hc, if_neg ha]

def Model.mixed : Model ℚ where
  direction := .maximize
  columns := [{ cost := 2, bound := ⟨.double, 0, 1⟩ },
    { cost := 1, bound := ⟨.lower, 0, 0⟩, fixed := some 1 }]
  rows := [{ bound := ⟨.double, 0, 2⟩, coefs := [(0, 1), (1, 1)] },
    { bound := ⟨.upper, 0, -1⟩, coefs := [(1, 1)], relaxed := true }]
  loaded := true

theorem Model.solve_translates_mixed :
    Model.mixed.system.Satisfied ![(1 : ℚ), 1] ∧ Model.mixed.loaded = true ∧
      Returns (solve (Solver.trying [[1, 1]])) Model.mixed .optimal
        { Model.mixed with solution := some { values := [1, 1], objective := 3 } } := by
  obtain ⟨hpoints, -, hsolve⟩ := solve_translates Model.mixed
  have hfeasible : Model.mixed.system.Feasible [1, 1] := by decide +kernel
  have hobjective : (3 : ℚ) = Model.mixed.signed (Model.mixed.system.objective [1, 1]) := by
    decide +kernel
  have hloaded : Model.mixed.loaded = true := rfl
  refine ⟨(hpoints _).mpr (feasible_iff_admits.mp hfeasible), hloaded, ?_⟩
  rw [hobjective]
  refine (hsolve _ hloaded).1 _ _ (by simp [Model.mixed]) ?_
  rw [Solver.trying, List.find?_cons_of_pos (by simpa using hfeasible)]

end LPRounding
