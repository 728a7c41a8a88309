import Mathlib

/-!
Points that finitely many linear limits admit, over any ordered field. A vertex lies halfway between
no two other points; where no direction goes on for ever, every linear cost is least at a vertex.
-/

namespace LPRounding

theorem card_le_of_determined {K α β : Type} [Field K] {A : Finset α} {R : Finset β}
    (form : β → (α → K) →ₗ[K] K)
    (h : ∀ d : α → K, (∀ j ∉ A, d j = 0) → (∀ i ∈ R, form i d = 0) → d = 0) :
    A.card ≤ R.card := by
  classical
  let widen : (A → K) →ₗ[K] α → K :=
    { toFun := fun d j => if hj : j ∈ A then d ⟨j, hj⟩ else 0
      map_add' := fun d e => by
        ext j
        by_cases hj : j ∈ A <;> simp [hj]
      map_smul' := fun c d => by
        ext j
        by_cases hj : j ∈ A <;> simp [hj] }
  let rows : (A → K) →ₗ[K] R → K := LinearMap.pi fun i => (form i).comp widen
  have hinj : Function.Injective rows := by
    refine (injective_iff_map_eq_zero rows).mpr fun d hd => ?_
    have hz : widen d = 0 := by
      refine h _ (fun j hj => by simp [widen, hj]) fun i hi => ?_
      exact congrFun hd ⟨i, hi⟩
    ext j
    simpa [widen] using congrFun hz j
  simpa using LinearMap.finrank_le_finrank_of_injective hinj

structure Polyhedron (K V ι : Type) [Field K] [AddCommGroup V] [Module K V] where
  form : ι → V →ₗ[K] K
  limit : ι → K

namespace Polyhedron

variable {K V ι : Type} [Field K] [LinearOrder K] [AddCommGroup V] [Module K V]

def Holds (p : Polyhedron K V ι) (x : V) : Prop := ∀ i, p.form i x ≤ p.limit i

/-- The point is at a limit. -/
def Tight (p : Polyhedron K V ι) (x : V) (i : ι) : Prop := p.form i x = p.limit i

structure Vertex (p : Polyhedron K V ι) (x : V) : Prop where
  holds : p.Holds x
  extreme : ∀ d, p.Holds (x + d) → p.Holds (x - d) → d = 0

/-- No direction keeps all limits for ever. -/
def Rayless (p : Polyhedron K V ι) : Prop := ∀ d, (∀ i, p.form i d ≤ 0) → d = 0

variable [IsStrictOrderedRing K] {p : Polyhedron K V ι} {x d : V}

theorem form_eq_zero_of_tight {i : ι} (ht : p.Tight x i) (h : p.Holds (x + d))
    (h' : p.Holds (x - d)) : p.form i d = 0 := by
  have h₁ := h i
  have h₂ := h' i
  rw [map_add, ht] at h₁
  rw [map_sub, ht] at h₂
  linarith

variable [Finite ι]

theorem exists_step {slack change : ι → K} (hs : ∀ i, 0 ≤ slack i)
    (hc : ∀ i, slack i = 0 → change i = 0) : ∃ t > 0, ∀ i, t * |change i| ≤ slack i := by
  cases nonempty_fintype ι
  suffices h : ∀ set : Finset ι, ∃ t > 0, ∀ i ∈ set, t * |change i| ≤ slack i by
    obtain ⟨t, ht, hle⟩ := h Finset.univ
    exact ⟨t, ht, fun i => hle i (Finset.mem_univ i)⟩
  classical
  intro set
  induction set using Finset.induction_on with
  | empty => exact ⟨1, one_pos, by simp⟩
  | insert i set _ ih =>
    obtain ⟨t, ht, hle⟩ := ih
    by_cases hz : change i = 0
    · refine ⟨t, ht, fun j hj => ?_⟩
      rcases Finset.mem_insert.mp hj with rfl | hj
      · simpa [hz] using hs j
      · exact hle j hj
    · have hpos : 0 < slack i := (hs i).lt_of_ne' fun h => hz (hc i h)
      have habs : 0 < |change i| := abs_pos.mpr hz
      refine ⟨min t (slack i / |change i|), lt_min ht (div_pos hpos habs), fun j hj => ?_⟩
      rcases Finset.mem_insert.mp hj with rfl | hj
      · calc min t (slack j / |change j|) * |change j|
            ≤ slack j / |change j| * |change j| :=
              mul_le_mul_of_nonneg_right (min_le_right _ _) habs.le
          _ = slack j := div_mul_cancel₀ _ habs.ne'
      · exact (mul_le_mul_of_nonneg_right (min_le_left _ _) (abs_nonneg _)).trans (hle j hj)

theorem Vertex.eq_zero (h : p.Vertex x) (hd : ∀ i, p.Tight x i → p.form i d = 0) : d = 0 := by
  obtain ⟨t, ht, hle⟩ : ∃ t > 0, ∀ i, t * |p.form i d| ≤ p.limit i - p.form i x :=
    exists_step (fun i => sub_nonneg.mpr (h.holds i)) fun i hi => hd i (sub_eq_zero.mp hi).symm
  have hroom (i : ι) : t * p.form i d ≤ p.limit i - p.form i x ∧
      -(t * p.form i d) ≤ p.limit i - p.form i x := by
    have habs : |t * p.form i d| ≤ p.limit i - p.form i x := by
      rw [abs_mul, abs_of_pos ht]
      exact hle i
    exact ⟨(le_abs_self _).trans habs, (neg_le_abs _).trans habs⟩
  have hzero : t • d = 0 := by
    refine h.extreme (t • d) (fun i => ?_) fun i => ?_
    · rw [map_add, map_smul, smul_eq_mul]
      linarith [(hroom i).1]
    · rw [map_sub, map_smul, smul_eq_mul]
      linarith [(hroom i).2]
  exact (smul_eq_zero.mp hzero).resolve_left ht.ne'

/-- From a point that is no vertex one can go on to a further limit without raising the cost. -/
theorem Holds.exists_tighter (hp : p.Rayless) (hx : p.Holds x) (hv : ¬ p.Vertex x)
    (cost : V →ₗ[K] K) : ∃ y, p.Holds y ∧ cost y ≤ cost x ∧ (∀ i, p.Tight x i → p.Tight y i) ∧
      ∃ i, p.Tight y i ∧ ¬ p.Tight x i := by
  obtain ⟨d, hd, hplus, hminus, hcost⟩ : ∃ d, d ≠ 0 ∧ p.Holds (x + d) ∧ p.Holds (x - d) ∧
      cost d ≤ 0 := by
    by_contra hno
    refine hv ⟨hx, fun d h h' => by_contra fun hd => ?_⟩
    rcases le_total (cost d) 0 with hc | hc
    · exact hno ⟨d, hd, h, h', hc⟩
    · refine hno ⟨-d, neg_ne_zero.mpr hd, ?_, ?_, by simpa using hc⟩
      · rwa [← sub_eq_add_neg]
      · rwa [sub_neg_eq_add]
  have hstay (i : ι) (ht : p.Tight x i) : p.form i d = 0 := form_eq_zero_of_tight ht hplus hminus
  obtain ⟨i₀, hi₀⟩ : ∃ i, 0 < p.form i d := by
    by_contra hno
    push Not at hno
    exact hd (hp d hno)
  -- of the limits ahead take the one that is reached first
  obtain ⟨i, hi, hfirst⟩ := Set.exists_min_image {i | 0 < p.form i d}
    (fun i => (p.limit i - p.form i x) / p.form i d) (Set.toFinite _) ⟨i₀, hi₀⟩
  have hi : 0 < p.form i d := hi
  have ht : 0 ≤ (p.limit i - p.form i x) / p.form i d :=
    div_nonneg (sub_nonneg.mpr (hx i)) hi.le
  refine ⟨x + ((p.limit i - p.form i x) / p.form i d) • d, fun j => ?_, ?_, fun j hj => ?_,
    i, ?_, fun hi' => hi.ne' (hstay i hi')⟩
  · rw [map_add, map_smul, smul_eq_mul]
    rcases le_or_gt (p.form j d) 0 with hj | hj
    · linarith [mul_nonpos_of_nonneg_of_nonpos ht hj, hx j]
    · have := mul_le_mul_of_nonneg_right (hfirst j hj) hj.le
      rw [div_mul_cancel₀ _ hj.ne'] at this
      linarith
  · rw [map_add, map_smul, smul_eq_mul]
    linarith [mul_nonpos_of_nonneg_of_nonpos ht hcost]
  · rw [Tight, map_add, map_smul, hstay j hj, smul_zero, add_zero]
    exact hj
  · rw [Tight, map_add, map_smul, smul_eq_mul, div_mul_cancel₀ _ hi.ne']
    ring

theorem Holds.exists_vertex_le (hp : p.Rayless) (hx : p.Holds x) (cost : V →ₗ[K] K) :
    ∃ v, p.Vertex v ∧ cost v ≤ cost x := by
  induction hn : {i | ¬ p.Tight x i}.ncard using Nat.strong_induction_on generalizing x with
  | _ n ih =>
    by_cases hv : p.Vertex x
    · exact ⟨x, hv, le_rfl⟩
    · obtain ⟨y, hy, hle, hkeep, i, hi, hni⟩ := hx.exists_tighter hp hv cost
      have hlt : {i | ¬ p.Tight y i}.ncard < n := by
        rw [← hn]
        refine Set.ncard_lt_ncard ⟨fun j hj hj' => hj (hkeep j hj'), fun hsub => ?_⟩
          (Set.toFinite _)
        exact hsub hni hi
      obtain ⟨v, hv, hvy⟩ := ih _ hlt hy rfl
      exact ⟨v, hv, hvy.trans hle⟩

theorem finite_vertices (p : Polyhedron K V ι) : {x | p.Vertex x}.Finite := by
  refine Set.Finite.of_injOn (f := fun x => {i | p.Tight x i}) (t := Set.univ)
    (fun _ _ => Set.mem_univ _) (fun x hx y hy heq => ?_) (Set.toFinite _)
  have hzero : y - x = 0 := by
    refine Vertex.eq_zero hx fun i hi => ?_
    have hyi : p.Tight y i := (Set.ext_iff.mp heq i).mp hi
    rw [map_sub, hi, hyi, sub_self]
  exact (sub_eq_zero.mp hzero).symm

/-- Some vertex is no dearer than any point. -/
theorem exists_cheapest_vertex (hp : p.Rayless) (hx : ∃ x, p.Holds x) (cost : V →ₗ[K] K) :
    ∃ v, p.Vertex v ∧ ∀ x, p.Holds x → cost v ≤ cost x := by
  obtain ⟨x, hx⟩ := hx
  obtain ⟨v₀, hv₀, -⟩ := hx.exists_vertex_le hp cost
  obtain ⟨v, hv, hmin⟩ := Set.exists_min_image {x | p.Vertex x} cost p.finite_vertices ⟨v₀, hv₀⟩
  refine ⟨v, hv, fun x hx => ?_⟩
  obtain ⟨w, hw, hle⟩ := hx.exists_vertex_le hp cost
  exact (hmin w hw).trans hle

end Polyhedron

end LPRounding
