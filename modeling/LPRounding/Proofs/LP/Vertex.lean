import LPRounding.Proofs.LP.Points
import LPRounding.Proofs.LP.Polyhedron

/-!
Vertices of linear systems. At a vertex the columns strictly inside their bounds are determined by
the rows without slack, so there are at least as many of those; and a system whose points stay
within a range has a vertex of least cost.
-/

namespace LPRounding

variable {K : Type}

section Definitions

variable [Scalar K]

/-- A point halfway between two points of the system only if these are the same. -/
structure System.Vertex (s : System K) (x : List K) : Prop where
  feasible : s.Feasible x
  extreme : ∀ y z, s.Feasible y → s.Feasible z →
    (∀ j, y.getD j 0 + z.getD j 0 = x.getD j 0 + x.getD j 0) → y = z

def System.Cheapest (s : System K) (x : List K) : Prop :=
  s.Feasible x ∧ ∀ y, s.Feasible y → s.objective x ≤ s.objective y

/-- What the solver reports as optimal is a vertex. -/
def Solver.Extreme (solver : Solver K) : Prop := ∀ s x c, solver s = .optimal x c → s.Vertex x

/-- The solver reports infeasible just the systems without points, and finds a cheapest vertex
where there is one. -/
structure Solver.Exact (solver : Solver K) : Prop where
  extreme : solver.Extreme
  infeasible : ∀ s, solver s = .infeasible ↔ ∀ x, ¬ s.Feasible x
  optimal : ∀ s x, s.Vertex x → s.Cheapest x → ∃ y c, solver s = .optimal y c ∧ s.Cheapest y

theorem Solver.Extreme.sound {solver : Solver K} (h : solver.Extreme) : solver.Sound :=
  fun s x c hx => (h s x c hx).feasible

def System.cornered [DecidableEq K] (s : System K) (x : List K) : Bool :=
  (s.bounds.zip x).all fun e => e.1.1 = some e.2 || e.1.2 = some e.2

def Solver.cornered [DecidableEq K] (solver : Solver K) : Solver K := fun s =>
  match solver s with
  | .optimal x c => if s.cornered x then .optimal x c else .undecided
  | verdict => verdict

open Classical in
noncomputable def Solver.exact : Solver K := fun s =>
  if h : ∃ x, s.Vertex x ∧ s.Cheapest x then .optimal h.choose (s.objective h.choose)
  else if ∃ x, s.Feasible x then .unbounded
  else .infeasible

theorem Solver.exact_exact : (Solver.exact (K := K)).Exact := by
  refine ⟨fun s x c h => ?_, fun s => ⟨fun h x hx => ?_, fun h => ?_⟩, fun s x hv hc => ?_⟩
  · unfold exact at h
    split at h
    · next hex =>
      obtain ⟨rfl, -⟩ := Verdict.optimal.inj h
      exact hex.choose_spec.1
    · split at h <;> cases h
  · unfold exact at h
    split at h
    · cases h
    · split at h
      · cases h
      · next hno => exact hno ⟨x, hx⟩
  · unfold exact
    rw [dif_neg fun hex => h _ hex.choose_spec.2.1, if_neg fun hex => h _ hex.choose_spec]
  · have hex : ∃ x, s.Vertex x ∧ s.Cheapest x := ⟨x, hv, hc⟩
    exact ⟨_, _, dif_pos hex, hex.choose_spec.2⟩

def Bound.Inside (b : Bound K) (x : K) : Prop :=
  (∀ l, b.floor? = some l → l < x) ∧ ∀ u, b.ceiling? = some u → x < u

def Constraint.turned (c : Constraint K) : Constraint K :=
  { coefs := c.coefs.map fun (j, a) => (j, -a), side := -c.side }

def System.rangeLimits (j : Nat) (b : Option K × Option K) : List (Constraint K) :=
  (b.1.toList.map fun l => { coefs := [(j, -1)], side := -l }) ++
    b.2.toList.map fun u => { coefs := [(j, 1)], side := u }

def System.limits (s : System K) : List (Constraint K) :=
  (s.bounds.zipIdx.flatMap fun e => System.rangeLimits e.2 e.1) ++ s.atMost ++
    s.equal.flatMap fun c => [c, c.turned]

end Definitions

set_option linter.unusedSectionVars false

variable [Field K] [LinearOrder K] [IsStrictOrderedRing K] [FloorRing K]

def weights (coefs : List (Nat × K)) : (Nat → K) →ₗ[K] K :=
  (coefs.map fun p => p.2 • LinearMap.proj p.1).sum

theorem weights_apply (coefs : List (Nat × K)) (d : Nat → K) :
    weights coefs d = (coefs.map fun p => p.2 * d p.1).sum := by
  unfold weights
  induction coefs with
  | nil => simp
  | cons p ps ih => simp [ih]

theorem weights_ones (js : List Nat) (hjs : js.Nodup) (d : Nat → K) :
    weights (js.map fun j => (j, 1)) d = ∑ j ∈ js.toFinset, d j := by
  rw [List.sum_toFinset d hjs, weights_apply]
  simp [Function.comp_def]

theorem weigh_eq_weights (coefs : List (Nat × K)) (x : List K) :
    weigh coefs x = weights coefs fun j => x.getD j 0 := by
  rw [weigh_eq, weights_apply]

theorem weights_neg (coefs : List (Nat × K)) :
    weights (coefs.map fun (j, c) => (j, -c)) = -weights coefs := by
  ext d
  simp only [weights_apply, LinearMap.neg_apply, List.map_map]
  induction coefs with
  | nil => simp
  | cons p ps ih =>
    simp only [List.map_cons, List.sum_cons, Function.comp_apply] at ih ⊢
    rw [ih]
    ring

namespace System

def widen (n : Nat) : (Fin n → K) →ₗ[K] Nat → K where
  toFun x j := (List.ofFn x).getD j 0
  map_add' x y := by
    ext j
    by_cases hj : j < n <;> simp [hj]
  map_smul' c x := by
    ext j
    by_cases hj : j < n <;> simp [hj]

def polyhedron (s : System K) : Polyhedron K (Fin s.bounds.length → K) (Fin s.limits.length) where
  form i := (weights s.limits[i].coefs).comp (widen _)
  limit i := s.limits[i].side

variable {s : System K} {x : List K}

theorem mem_rangeLimits {j : Nat} {b : Option K × Option K} {c : Constraint K} :
    c ∈ rangeLimits j b ↔ (∃ l, b.1 = some l ∧ c = { coefs := [(j, -1)], side := -l }) ∨
      ∃ u, b.2 = some u ∧ c = { coefs := [(j, 1)], side := u } := by
  simp [rangeLimits, eq_comm]

theorem mem_limits {c : Constraint K} : c ∈ s.limits ↔
    (∃ j b, s.bounds[j]? = some b ∧ c ∈ rangeLimits j b) ∨ c ∈ s.atMost ∨
      ∃ e ∈ s.equal, c = e ∨ c = e.turned := by
  simp only [limits, List.mem_append, List.mem_flatMap, Prod.exists,
    List.mk_mem_zipIdx_iff_getElem?, List.mem_cons, List.not_mem_nil, or_false, or_assoc]
  refine or_congr ⟨?_, ?_⟩ Iff.rfl
  · rintro ⟨l, u, j, h⟩
    exact ⟨j, l, u, h⟩
  · rintro ⟨j, l, u, h⟩
    exact ⟨l, u, j, h⟩

theorem turned_iff (c : Constraint K) :
    weigh c.turned.coefs x ≤ c.turned.side ↔ c.side ≤ weigh c.coefs x := by
  unfold Constraint.turned
  rw [weigh_neg, neg_le_neg_iff]

theorem feasible_iff_limits : s.Feasible x ↔
    x.length = s.bounds.length ∧ ∀ c ∈ s.limits, weigh c.coefs x ≤ c.side := by
  constructor
  · intro h
    refine ⟨h.length, fun c hc => ?_⟩
    rcases mem_limits.mp hc with ⟨j, b, hj, hc⟩ | hc | ⟨e, he, rfl | rfl⟩
    · have hlt : j < x.length := h.length ▸ (List.getElem?_eq_some_iff.mp hj).1
      have hw := h.bounds j b _ hj (List.getElem?_eq_getElem hlt)
      rcases mem_rangeLimits.mp hc with ⟨l, hl, rfl⟩ | ⟨u, hu, rfl⟩
      · simpa [hlt] using hw.1 l hl
      · simpa [hlt] using hw.2 u hu
    · exact h.atMost c hc
    · exact (h.equal _ he).le
    · exact (turned_iff e).mpr (h.equal _ he).ge
  · rintro ⟨hl, h⟩
    refine ⟨hl, fun j b v hb hv => ⟨fun l hlo => ?_, fun u hup => ?_⟩, fun c hc => ?_,
      fun c hc => ?_⟩
    · have := h _ (mem_limits.mpr (.inl ⟨j, b, hb, mem_rangeLimits.mpr (.inl ⟨l, hlo, rfl⟩)⟩))
      simpa [hv] using this
    · have := h _ (mem_limits.mpr (.inl ⟨j, b, hb, mem_rangeLimits.mpr (.inr ⟨u, hup, rfl⟩)⟩))
      simpa [hv] using this
    · exact h c (mem_limits.mpr (.inr (.inl hc)))
    · refine le_antisymm (h c (mem_limits.mpr (.inr (.inr ⟨c, hc, .inl rfl⟩)))) ?_
      exact (turned_iff c).mp (h _ (mem_limits.mpr (.inr (.inr ⟨c, hc, .inr rfl⟩))))

theorem holds_iff (f : Fin s.bounds.length → K) :
    s.polyhedron.Holds f ↔ s.Feasible (List.ofFn f) := by
  rw [feasible_iff_limits]
  constructor
  · intro h
    refine ⟨List.length_ofFn, fun c hc => ?_⟩
    obtain ⟨i, hi, rfl⟩ := List.getElem_of_mem hc
    rw [weigh_eq_weights]
    exact h ⟨i, hi⟩
  · rintro ⟨-, h⟩ i
    have := h s.limits[i] (List.getElem_mem _)
    rwa [weigh_eq_weights] at this

theorem ofFn_getD (hx : x.length = s.bounds.length) :
    List.ofFn (fun j : Fin s.bounds.length => x.getD j 0) = x := by
  apply List.ext_getElem
  · simp [hx]
  · intro j h₁ h₂
    simp [h₂]

theorem widen_getD (hx : x.length = s.bounds.length) :
    (widen s.bounds.length fun j => x.getD j 0) = fun j => x.getD j 0 := by
  ext j
  rw [widen, LinearMap.coe_mk, AddHom.coe_mk, ofFn_getD hx]

theorem Vertex.polyhedron (h : s.Vertex x) :
    s.polyhedron.Vertex fun j : Fin s.bounds.length => x.getD j 0 := by
  refine ⟨(holds_iff _).mpr (by rw [ofFn_getD h.feasible.length]; exact h.feasible), ?_⟩
  intro d hplus hminus
  have heq := h.extreme _ _ ((holds_iff _).mp hplus) ((holds_iff _).mp hminus) fun j => by
    by_cases hj : j < s.bounds.length
    · simp [hj]
    · simp [hj, List.getElem?_eq_none (h.feasible.length.trans_le (not_lt.mp hj))]
  ext j
  have := congrFun (List.ofFn_injective heq) j
  simp only [Pi.add_apply, Pi.sub_apply, Pi.zero_apply] at this ⊢
  linarith

theorem vertex_of_polyhedron {f : Fin s.bounds.length → K} (h : s.polyhedron.Vertex f) :
    s.Vertex (List.ofFn f) := by
  refine ⟨(holds_iff f).mp h.holds, fun y z hy hz hmid => ?_⟩
  have hhalf (j : Fin s.bounds.length) : y.getD j 0 + z.getD j 0 = f j + f j := by
    simpa using hmid j
  let d : Fin s.bounds.length → K := fun j => (y.getD j 0 - z.getD j 0) / 2
  have hplus : f + d = fun j : Fin s.bounds.length => y.getD j 0 := by
    ext j
    simp only [Pi.add_apply, d]
    linarith [hhalf j]
  have hminus : f - d = fun j : Fin s.bounds.length => z.getD j 0 := by
    ext j
    simp only [Pi.sub_apply, d]
    linarith [hhalf j]
  have hzero : d = 0 := by
    refine h.extreme d ?_ ?_
    · rw [hplus, holds_iff, ofFn_getD hy.length]
      exact hy
    · rw [hminus, holds_iff, ofFn_getD hz.length]
      exact hz
  rw [← ofFn_getD hy.length, ← ofFn_getD hz.length]
  congr 1
  ext j
  have := congrFun hzero j
  simp only [Pi.zero_apply, d] at this
  linarith

theorem Feasible.vertex [DecidableEq K] (h : s.Feasible x) (hc : s.cornered x = true) :
    s.Vertex x := by
  refine ⟨h, fun y z hy hz hmid => List.ext_getElem (hy.length.trans hz.length.symm) ?_⟩
  intro j hjy hjz
  have hjb : j < s.bounds.length := hy.length ▸ hjy
  have hjx : j < x.length := h.length ▸ hjb
  have hyj := hy.bounds j _ _ (List.getElem?_eq_getElem hjb) (List.getElem?_eq_getElem hjy)
  have hzj := hz.bounds j _ _ (List.getElem?_eq_getElem hjb) (List.getElem?_eq_getElem hjz)
  have hmid := hmid j
  simp only [List.getD_eq_getElem _ _ hjy, List.getD_eq_getElem _ _ hjz,
    List.getD_eq_getElem _ _ hjx] at hmid
  have hpair : (s.bounds[j], x[j]) ∈ s.bounds.zip x := by
    rw [← List.getElem_zip (i := j) (h := by simp [hjb, hjx])]
    exact List.getElem_mem _
  have hend := List.all_eq_true.mp hc _ hpair
  simp only [Bool.or_eq_true, decide_eq_true_eq] at hend
  -- two numbers on one side of a bound are both at it if it is halfway between them
  rcases hend with hlo | hup
  · have hy := hyj.1 _ hlo
    have hz := hzj.1 _ hlo
    linarith
  · have hy := hyj.2 _ hup
    have hz := hzj.2 _ hup
    linarith

theorem Vertex.eq_zero (h : s.Vertex x) {d : Nat → K} (hout : ∀ j, x.length ≤ j → d j = 0)
    (hb : ∀ (j : Nat) b, s.bounds[j]? = some b → d j = 0 ∨
      (∀ l, b.1 = some l → l < x.getD j 0) ∧ ∀ u, b.2 = some u → x.getD j 0 < u)
    (hm : ∀ c ∈ s.atMost, weigh c.coefs x = c.side → weights c.coefs d = 0)
    (he : ∀ c ∈ s.equal, weights c.coefs d = 0) : d = 0 := by
  have hd : widen s.bounds.length (fun j => d j) = d := by
    ext j
    by_cases hj : j < s.bounds.length
    · simp [widen, hj]
    · simp [widen, hj, hout j (h.feasible.length.trans_le (not_lt.mp hj))]
  have hzero : (fun j : Fin s.bounds.length => d j) = 0 := by
    refine h.polyhedron.eq_zero fun i ht => ?_
    have ht : weigh s.limits[i].coefs x = s.limits[i].side := by
      rw [weigh_eq_weights, ← widen_getD h.feasible.length]
      exact ht
    show weights _ (widen _ _) = 0
    rw [hd]
    have hc : s.limits[i] ∈ s.limits := List.getElem_mem _
    generalize s.limits[i] = c at ht hc ⊢
    rcases mem_limits.mp hc with ⟨j, b, hj, hc⟩ | hc | ⟨e, hce, rfl | rfl⟩
    · rcases hb j b hj with hz | ⟨hlo, hup⟩
      · rcases mem_rangeLimits.mp hc with ⟨l, hl, rfl⟩ | ⟨u, hu, rfl⟩ <;> simp [weights_apply, hz]
      · rcases mem_rangeLimits.mp hc with ⟨l, hl, rfl⟩ | ⟨u, hu, rfl⟩
        · exact absurd (by simpa using ht) (hlo l hl).ne'
        · exact absurd (by simpa using ht) (hup u hu).ne
    · exact hm c hc ht
    · exact he _ hce
    · rw [Constraint.turned, weights_neg, LinearMap.neg_apply, he _ hce, neg_zero]
  ext j
  by_cases hj : j < s.bounds.length
  · exact congrFun hzero ⟨j, hj⟩
  · exact hout j (h.feasible.length.trans_le (not_lt.mp hj))

theorem sum_zipWith_eq (cost x : List K) (k : Nat) (g : Nat → K)
    (hg : ∀ j, g (k + j) = x.getD j 0) :
    (List.zipWith (· * ·) cost x).sum = ((cost.zipIdx k).map fun e => e.1 * g e.2).sum := by
  induction cost generalizing x k with
  | nil => simp
  | cons c cost ih =>
    have hk := hg 0
    have htail (j : Nat) : g (k + 1 + j) = x.tail.getD j 0 := by
      rw [Nat.add_assoc, hg, Nat.add_comm]
      cases x <;> simp
    rw [List.zipIdx_cons, List.map_cons, List.sum_cons, ← ih x.tail (k + 1) htail]
    cases x <;> simp_all

theorem objective_eq (x : List K) : s.objective x =
    weights (s.cost.zipIdx.map fun e => (e.2, e.1)) fun j => x.getD j 0 := by
  rw [objective, Scalar.sum_eq, sum_zipWith_eq s.cost x 0 (fun j => x.getD j 0) (by simp),
    weights_apply, List.map_map]
  rfl

/-- Where no point leaves a range, some vertex costs least. -/
theorem exists_cheapest_vertex (hx : ∃ x, s.Feasible x) {most : K}
    (hr : ∀ x, s.Feasible x → ∀ j, |x.getD j 0| ≤ most) : ∃ x, s.Vertex x ∧ s.Cheapest x := by
  have hpoint {x : List K} (hx : s.Feasible x) :
      s.polyhedron.Holds fun j : Fin s.bounds.length => x.getD j 0 := by
    rw [holds_iff, ofFn_getD hx.length]
    exact hx
  obtain ⟨x, hx⟩ := hx
  have hrayless : s.polyhedron.Rayless := by
    intro d hd
    by_contra hne
    obtain ⟨j, hj⟩ : ∃ j, d j ≠ 0 := by
      by_contra hno
      push Not at hno
      exact hne (funext hno)
    have habs : 0 < |d j| := abs_pos.mpr hj
    have hmost : 0 ≤ most := (abs_nonneg _).trans (hr x hx 0)
    -- so far along the ray that the column leaves the range
    let t := (2 * most + 1) / |d j|
    have ht : 0 ≤ t := div_nonneg (by linarith) habs.le
    have hray : s.polyhedron.Holds ((fun j : Fin s.bounds.length => x.getD j 0) + t • d) := by
      intro i
      rw [map_add, map_smul, smul_eq_mul]
      linarith [hpoint hx i, mul_nonpos_of_nonneg_of_nonpos ht (hd i)]
    have hfar := hr _ ((holds_iff _).mp hray) j
    have hfar : |x.getD j 0 + t * d j| ≤ most := by simpa using hfar
    have hlen : |t * d j| = 2 * most + 1 := by
      rw [abs_mul, abs_of_nonneg ht, div_mul_cancel₀ _ habs.ne']
    have htri : |t * d j| ≤ |x.getD j 0 + t * d j| + |x.getD j 0| := by
      have := abs_sub (x.getD j 0 + t * d j) (x.getD j 0)
      rwa [add_sub_cancel_left] at this
    linarith [hr x hx j]
  obtain ⟨v, hv, hmin⟩ := Polyhedron.exists_cheapest_vertex hrayless ⟨_, hpoint hx⟩
    ((weights (s.cost.zipIdx.map fun e => (e.2, e.1))).comp (widen _))
  refine ⟨List.ofFn v, vertex_of_polyhedron hv, (holds_iff v).mp hv.holds, fun y hy => ?_⟩
  have := hmin _ (hpoint hy)
  simp only [LinearMap.comp_apply, widen_getD hy.length] at this
  rw [objective_eq, objective_eq]
  exact this

end System

theorem Solver.of_cornered [DecidableEq K] {solver : Solver K} {s : System K} {x : List K} {c : K}
    (h : solver.cornered s = .optimal x c) :
    solver s = .optimal x c ∧ s.cornered x = true := by
  unfold Solver.cornered at h
  split at h
  · next heq =>
    split at h
    · next hc =>
      obtain ⟨rfl, rfl⟩ := Verdict.optimal.inj h
      exact ⟨heq, hc⟩
    · cases h
  · next hno => exact absurd h (hno x c)

theorem Solver.Sound.extreme_cornered [DecidableEq K] {solver : Solver K} (h : solver.Sound) :
    solver.cornered.Extreme := by
  intro s x c hx
  obtain ⟨hx, hc⟩ := Solver.of_cornered hx
  exact (h s x c hx).vertex hc

theorem Row.mem_limits {r : Row K} {c : Constraint K} (hc : c ∈ r.limits) :
    (∃ u, r.bound.ceiling? = some u ∧ c = { coefs := r.coefs, side := u }) ∨
      ∃ l, r.bound.floor? = some l ∧ c = ({ coefs := r.coefs, side := l } : Constraint K).turned := by
  unfold limits at hc
  split at hc
  · cases hc
  · simpa [Constraint.turned, eq_comm] using hc

theorem Row.mem_equations {r : Row K} {c : Constraint K} (hc : c ∈ r.equations) :
    r.bound.floor? = some r.bound.lo ∧ r.bound.ceiling? = some r.bound.lo ∧
      c = { coefs := r.coefs, side := r.bound.lo } := by
  unfold equations at hc
  split at hc
  · next hk => simpa [Bound.floor?, Bound.ceiling?, hk] using hc
  · cases hc

/-- At a vertex a change of active columns that are strictly inside their bounds, which no row
without slack notices, is none. -/
theorem Model.eq_zero_of_vertex {m : Model K} {x : List K} (h : m.system.Vertex x) {d : Nat → K}
    (hcolumn : ∀ j, d j ≠ 0 → ∃ c, m.columns[j]? = some c ∧ c.fixed = none ∧
      c.bound.Inside (x.getD j 0))
    (hrow : ∀ r ∈ m.rows, r.relaxed = false →
      r.bound.Inside (weigh r.coefs x) ∨ weights r.coefs d = 0) : d = 0 := by
  have hkept {r : Row K} (hr : r ∈ m.keptRows) :=
    hrow r (mem_keptRows.mp hr).1 (mem_keptRows.mp hr).2
  refine h.eq_zero (fun j hj => ?_) (fun j b hb => ?_) (fun c hc htight => ?_) fun c hc => ?_
  · by_contra hd
    obtain ⟨c, hc, -⟩ := hcolumn j hd
    have := (List.getElem?_eq_some_iff.mp hc).1
    have hlen : x.length = m.columns.length := (feasible_iff_admits.mp h.feasible).length
    omega
  · by_cases hd : d j = 0
    · exact .inl hd
    · obtain ⟨c, hc, hf, hi⟩ := hcolumn j hd
      obtain rfl : c.bounds = b := by simpa [system, hc] using hb
      exact .inr (by simpa [Column.bounds, hf, Bound.Inside] using hi)
  · obtain ⟨r, hr, hc⟩ := List.mem_flatMap.mp hc
    rcases Row.mem_limits hc with ⟨u, hu, rfl⟩ | ⟨l, hl, rfl⟩ <;>
      rcases hkept hr with ⟨hlo, hup⟩ | hz
    · exact absurd htight (hup u hu).ne
    · exact hz
    · simp only [Constraint.turned, weigh_neg, neg_inj] at htight
      exact absurd htight (hlo l hl).ne'
    · rw [Constraint.turned, weights_neg, LinearMap.neg_apply, hz, neg_zero]
  · obtain ⟨r, hr, hc⟩ := List.mem_flatMap.mp hc
    obtain ⟨hlo, hup, rfl⟩ := Row.mem_equations hc
    rcases hkept hr with ⟨hi, hi'⟩ | hz
    · exact absurd (hi _ hlo) (not_lt.mpr (hi' _ hup).le)
    · exact hz

end LPRounding
