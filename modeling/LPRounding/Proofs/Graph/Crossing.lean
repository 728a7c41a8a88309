import LPRounding.Proofs.Graph.Uncrossing

/-!
Cuts with no more than pairs of vertices need. Where across every set there is what each pair needs
that it parts, two sets with no more than that can be uncrossed in one of two ways: into their common
part and their union, or into what each has for itself. So nested ones among them say what all of
them say, and fractions below a half leave some change that none of them notices.
-/

namespace LPRounding

set_option linter.unusedSectionVars false

variable {V α K : Type} [DecidableEq V]

section Pairs

variable {s t s' t' : Finset V} {u v : V}

theorem Crosses.uncross (h : Crosses s u v) (t : Finset V) :
    (Crosses (s ∩ t) u v ∨ Crosses (s \ t) u v) ∧
      (Crosses (s ∪ t) u v ∨ Crosses (t \ s) u v) := by
  unfold Crosses at h ⊢
  by_cases hus : u ∈ s <;> by_cases hvs : v ∈ s <;> by_cases hut : u ∈ t <;>
    by_cases hvt : v ∈ t <;> simp [hus, hvs, hut, hvt] at h ⊢

variable [Field K] [LinearOrder K] [IsStrictOrderedRing K]

def parting (K : Type) [Field K] (u v : V) (set : Finset V) : K := if Crosses set u v then 1 else 0

theorem Uncrosses.parting_le (h : Uncrosses s t s' t') (u v : V) :
    parting K u v s' + parting K u v t' ≤ parting K u v s + parting K u v t := by
  unfold parting Crosses
  cases h <;> by_cases hus : u ∈ s <;> by_cases hvs : v ∈ s <;> by_cases hut : u ∈ t <;>
    by_cases hvt : v ∈ t <;> simp [hus, hvs, hut, hvt]

/-- Some pair across the set needs so much. -/
def Demands (need : V → V → K) (set : Finset V) (r : K) : Prop :=
  ∃ u v, Crosses set u v ∧ r ≤ need u v

variable {need : V → V → K} {r q : K}

/-- Two sets can be uncrossed in one of two ways so that no less is needed across them. -/
theorem Demands.uncross (hs : Demands need s r) (ht : Demands need t q) :
    ∃ s' t' r' q', Uncrosses s t s' t' ∧ Demands need s' r' ∧ Demands need t' q' ∧
      r + q ≤ r' + q' := by
  obtain ⟨u, v, hs, hr⟩ := hs
  obtain ⟨w, z, ht, hq⟩ := ht
  have first {set : Finset V} (h : Crosses set u v) : Demands need set r := ⟨u, v, h, hr⟩
  have second {set : Finset V} (h : Crosses set w z) : Demands need set q := ⟨w, z, h, hq⟩
  obtain ⟨hst, hst'⟩ := hs.uncross t
  obtain ⟨hts, hts'⟩ := ht.uncross s
  rw [Finset.inter_comm] at hts
  rw [Finset.union_comm] at hts'
  -- in all but two cases the pairs count for one set each
  rcases hst with hinter | hleft <;> rcases hst' with hunion | hright
  · rcases hts with hinter' | hright'
    · exact ⟨_, _, _, _, .merge, second hinter', first hunion, (add_comm r q).le⟩
    rcases hts' with hunion' | hleft'
    · exact ⟨_, _, _, _, .merge, first hinter, second hunion', le_rfl⟩
    -- the larger of the two needs counts for both sets
    rcases le_total q r with hqr | hrq
    · exact ⟨_, _, _, _, .merge, first hinter, first hunion, by linarith⟩
    · exact ⟨_, _, _, _, .part, second hleft', second hright', by linarith⟩
  · rcases hts' with hunion' | hleft'
    · exact ⟨_, _, _, _, .merge, first hinter, second hunion', le_rfl⟩
    · exact ⟨_, _, _, _, .part, second hleft', first hright, (add_comm r q).le⟩
  · rcases hts with hinter' | hright'
    · exact ⟨_, _, _, _, .merge, second hinter', first hunion, (add_comm r q).le⟩
    · exact ⟨_, _, _, _, .part, first hleft, second hright', le_rfl⟩
  · rcases hts with hinter' | hright'
    · rcases hts' with hunion' | hleft'
      · rcases le_total q r with hqr | hrq
        · exact ⟨_, _, _, _, .part, first hleft, first hright, by linarith⟩
        · exact ⟨_, _, _, _, .merge, second hinter', second hunion', by linarith⟩
      · exact ⟨_, _, _, _, .part, second hleft', first hright, (add_comm r q).le⟩
    · exact ⟨_, _, _, _, .part, first hleft, second hright', le_rfl⟩

end Pairs

section Critical

variable [Field K] [LinearOrder K] [IsStrictOrderedRing K] {E C : Finset α} {a b : α → V}
  {x d : α → K} {need : V → V → K} {s t s' t' vs : Finset V}

theorem crossed_add_crossed (E : Finset α) (a b : α → V) (x : α → K) (s t : Finset V) :
    crossed E a b x s + crossed E a b x t =
      ∑ e ∈ E, (parting K (a e) (b e) s + parting K (a e) (b e) t) * x e := by
  simp only [crossed_eq, add_mul, Finset.sum_add_distrib]
  rfl

theorem Uncrosses.crossed_le (h : Uncrosses s t s' t') (h0 : ∀ e ∈ E, 0 ≤ x e) :
    crossed E a b x s' + crossed E a b x t' ≤ crossed E a b x s + crossed E a b x t := by
  rw [crossed_add_crossed, crossed_add_crossed]
  exact Finset.sum_le_sum fun e he => mul_le_mul_of_nonneg_right (h.parting_le _ _) (h0 e he)

theorem Uncrosses.crossed_eq (h : Uncrosses s t s' t') (h0 : ∀ e ∈ E, 0 ≤ x e)
    (heq : crossed E a b x s' + crossed E a b x t' = crossed E a b x s + crossed E a b x t)
    (hd : ∀ e ∈ E, x e = 0 → d e = 0) :
    crossed E a b d s' + crossed E a b d t' = crossed E a b d s + crossed E a b d t := by
  rw [crossed_add_crossed, crossed_add_crossed] at heq ⊢
  have hle : ∀ e ∈ E, (parting K (a e) (b e) s' + parting K (a e) (b e) t') * x e ≤
      (parting K (a e) (b e) s + parting K (a e) (b e) t) * x e :=
    fun e he => mul_le_mul_of_nonneg_right (h.parting_le _ _) (h0 e he)
  refine Finset.sum_congr rfl fun e he => ?_
  by_cases hx : x e = 0
  · rw [hd e he hx, mul_zero, mul_zero]
  · have hterm := (Finset.sum_eq_sum_iff_of_le hle).mp heq e he
    rw [mul_right_cancel₀ hx hterm]

def Covers (need : V → V → K) (E : Finset α) (a b : α → V) (x : α → K) : Prop :=
  ∀ set u v, Crosses set u v → need u v ≤ crossed E a b x set

/-- Across the set there is no more than some pair needs. -/
structure Critical (need : V → V → K) (E : Finset α) (a b : α → V) (x : α → K)
    (vs set : Finset V) : Prop where
  subset : set ⊆ vs
  demanded : Demands need set (crossed E a b x set)

theorem Critical.uncross (hs : Critical need E a b x vs s) (ht : Critical need E a b x vs t)
    (hcovers : Covers need E a b x) (h0 : ∀ e ∈ E, 0 ≤ x e) :
    ∃ s' t', Uncrosses s t s' t' ∧ Critical need E a b x vs s' ∧ Critical need E a b x vs t' ∧
      crossed E a b x s' + crossed E a b x t' = crossed E a b x s + crossed E a b x t := by
  obtain ⟨s', t', r, q, h, ⟨u, v, hs', hr⟩, ⟨w, z, ht', hq⟩, hle⟩ :=
    hs.demanded.uncross ht.demanded
  have hsum := h.crossed_le (a := a) (b := b) h0
  have hr' := hcovers s' u v hs'
  have hq' := hcovers t' w z ht'
  obtain ⟨hsub, hsub'⟩ := h.subset hs.subset ht.subset
  exact ⟨s', t', h, ⟨hsub, u, v, hs', by linarith⟩, ⟨hsub', w, z, ht', by linarith⟩, by linarith⟩

/-- Nested sets among the critical ones say of a change of positive fractions what all of them
say. -/
theorem exists_laminar_critical (hcovers : Covers need E a b x) (h0 : ∀ e ∈ E, 0 ≤ x e)
    (vs : Finset V) : ∃ nested : Finset (Finset V), Laminar id nested ∧
      (∀ s ∈ nested, Critical need E a b x vs s) ∧
      ∀ d : α → K, (∀ e ∈ E, x e = 0 → d e = 0) → (∀ s ∈ nested, crossed E a b d s = 0) →
        ∀ s, Critical need E a b x vs s → crossed E a b d s = 0 := by
  obtain ⟨nested, hlam, hcritical, hall⟩ :=
    exists_laminar_maximal (Critical need E a b x vs) fun _ hs => hs.subset
  refine ⟨nested, hlam, hcritical, fun d hd hzero s hs => hlam.carry hzero hall ?_ hs⟩
  intro s t hs ht _
  obtain ⟨s', t', h, hs', ht', heq⟩ := hs.uncross (hcritical t ht) hcovers h0
  refine ⟨s', t', h, hs', ht', fun hzs hzt => ?_⟩
  have hsum := h.crossed_eq h0 heq hd
  rw [hzs, hzt, hzero t ht] at hsum
  linarith

theorem Critical.exists_int (h : Critical need C a b x vs s) (hcovers : Covers need C a b x)
    (hneed : ∀ u v, ∃ k : ℤ, need u v = k) (hE : E ⊆ C)
    (hclosed : ∀ e ∈ C, e ∉ E → x e = 0 ∨ x e = 1) : ∃ n : ℤ, crossed E a b x s = n := by
  obtain ⟨u, v, huv, hle⟩ := h.demanded
  obtain ⟨k, hk⟩ := hneed u v
  refine exists_int_open (fun e => Crosses s (a e) (b e)) hE hclosed ⟨k, ?_⟩
  exact (hle.antisymm (hcovers s u v huv)).trans hk

theorem crossed_inter (hends : ∀ e ∈ E, a e ∈ vs ∧ b e ∈ vs) (d : α → K) (s : Finset V) :
    crossed E a b d (s ∩ vs) = crossed E a b d s := by
  unfold crossed
  congr 1
  refine Finset.filter_congr fun e he => ?_
  simp [Crosses, hends e he]

/-- Where every set is covered and needs are whole, some change of the open edges goes unnoticed by
every set with no more across it than some pair needs, unless one of these edges is at a half or
more. -/
theorem exists_unfelt (hE : E.Nonempty) (hEC : E ⊆ C) (hcovers : Covers need C a b x)
    (hneed : ∀ u v, ∃ k : ℤ, need u v = k) (hopen : ∀ e ∈ E, 0 < x e ∧ x e < 1 / 2)
    (hclosed : ∀ e ∈ C, e ∉ E → x e = 0 ∨ x e = 1) (ends : Finset V) :
    ∃ d : α → K, d ≠ 0 ∧ (∀ e ∉ E, d e = 0) ∧ ∀ s, ∀ u ∈ ends, ∀ v ∈ ends, Crosses s u v →
      crossed C a b x s = need u v → crossed C a b d s = 0 := by
  have h0 : ∀ e ∈ C, 0 ≤ x e := by
    intro e he
    by_cases heE : e ∈ E
    · exact (hopen e heE).1.le
    · rcases hclosed e he heE with hx | hx <;> rw [hx]
      exact zero_le_one
  -- sets matter for the ends of edges and pairs only, and of such sets there are finitely many
  let vs := C.image a ∪ C.image b ∪ ends
  have hvs : ∀ e ∈ C, a e ∈ vs ∧ b e ∈ vs := by
    intro e he
    have ha := Finset.mem_image_of_mem a he
    have hb := Finset.mem_image_of_mem b he
    simp only [vs, Finset.mem_union]
    exact ⟨.inl (.inl ha), .inl (.inr hb)⟩
  obtain ⟨nested, hlam, hcritical, hspan⟩ := exists_laminar_critical hcovers h0 vs
  obtain ⟨d, hne, hd, hzero⟩ := exists_unnoticed hE hopen hlam fun s hs =>
    (hcritical s hs).exists_int hcovers hneed hEC hclosed
  refine ⟨d, hne, hd, fun s u hu v hv huv heq => ?_⟩
  rw [← crossed_inter hvs]
  refine hspan d (fun e _ hx => hd e fun he => (hopen e he).1.ne' hx) (fun t ht => ?_) _ ?_
  · rw [crossed, sum_filter_of_support _ hEC hd]
    exact hzero t ht
  · refine ⟨Finset.inter_subset_right, u, v, ?_, (crossed_inter hvs x s).le.trans heq.le⟩
    have hu : u ∈ vs := Finset.mem_union_right _ hu
    have hv : v ∈ vs := Finset.mem_union_right _ hv
    simpa [Crosses, hu, hv] using huv

end Critical

end LPRounding
