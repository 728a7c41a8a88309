import LPRounding.Proofs.Flow.Cut

/-!
Maximum flows of whole amounts. Where all room is whole, a flow of whole amounts can be raised by
one unless it fills a cut, so one of them is maximum.
-/

namespace LPRounding.Network

set_option linter.unusedSectionVars false

variable {V K : Type} [DecidableEq V] [Field K] [LinearOrder K] [IsStrictOrderedRing K]
  [FloorRing K] {n : Network V K} {s t : V} {f : Flow K}

/-- A flow of whole amounts. -/
def Integral (n : Network V K) (s t : V) (f : Flow K) : Prop :=
  n.Carries s t f ∧ n.Whole (n.sent f)

/-- Whole amounts between the vertices of a set that take one from `s` to `v` on top of a flow. -/
structure Shift (n : Network V K) (f : Flow K) (s v : V) (set : Finset V) (more : V → V → K) :
    Prop where
  boost : n.Boost f s v 1 more
  whole : n.Whole more
  support : ∀ a b, more a b ≠ 0 → a ∈ set ∧ b ∈ set

/-- Every vertex of the set can be given one more without leaving the set. -/
def Served (n : Network V K) (f : Flow K) (s : V) (set : Finset V) : Prop :=
  set ⊆ n.vertices.toFinset ∧ s ∈ set ∧ ∀ v ∈ set, ∃ more, n.Shift f s v set more

theorem Shift.mono {v : V} {set all : Finset V} {more : V → V → K}
    (h : n.Shift f s v set more) (hsub : set ⊆ all) : n.Shift f s v all more :=
  ⟨h.boost, h.whole, fun a b hab => ⟨hsub (h.support a b hab).1, hsub (h.support a b hab).2⟩⟩

theorem served_source (h : n.Carries s t f) (hs : s ∈ n.vertices) : n.Served f s {s} := by
  refine ⟨by simpa using hs, Finset.mem_singleton_self s, ?_⟩
  intro v hv
  obtain rfl := Finset.mem_singleton.mp hv
  refine ⟨fun _ _ => 0, ⟨by simp, ?_, by simp⟩, fun _ _ _ _ => ⟨0, by simp⟩, by simp⟩
  intro a ha b hb
  rw [add_zero]
  exact h.within a ha b hb

theorem exists_unit_eq (v w a b : V) : ∃ k : ℤ, (unit v w a b : K) = k :=
  ⟨(if a = v ∧ b = w then 1 else 0) - if a = w ∧ b = v then 1 else 0, by simp [unit]⟩

theorem ends_of_unit {v w a b : V} (h : (unit v w a b : K) ≠ 0) :
    (a = v ∧ b = w) ∨ (a = w ∧ b = v) := by
  by_contra hno
  rw [not_or] at hno
  simp [unit, hno] at h

theorem Shift.step (h : n.Integral s t f) (hn : n.Whole n.room) {u w : V} {set : Finset V}
    {more : V → V → K} (hm : n.Shift f s u set more) (hu : u ∈ n.vertices) (hw : w ∈ n.vertices)
    (hus : u ∈ set) (hws : w ∉ set) (hlt : n.sent f u w < n.room u w) :
    n.Shift f s w (insert w set) fun a b => more a b + unit u w a b := by
  have huw : u ≠ w := by
    rintro rfl
    exact hws hus
  have hnone {a b : V} (hab : a = w ∨ b = w) : more a b = 0 := by
    by_contra hne
    obtain ⟨ha, hb⟩ := hm.support a b hne
    rcases hab with rfl | rfl
    · exact hws ha
    · exact hws hb
  have hone : n.sent f u w + 1 ≤ n.room u w := by
    obtain ⟨a, ha⟩ := hn u hu w hw
    obtain ⟨b, hb⟩ := h.2 u hu w hw
    rw [ha, hb] at hlt ⊢
    have hlt : b < a := by exact_mod_cast hlt
    exact_mod_cast hlt
  refine ⟨⟨?_, ?_, ?_⟩, ?_, ?_⟩
  · intro a b
    rw [hm.boost.skew a b, unit_skew]
    ring
  · intro a ha b hb
    have hle := hm.boost.within a ha b hb
    by_cases hstep : a = u ∧ b = w
    · obtain ⟨rfl, rfl⟩ := hstep
      rw [hnone (.inr rfl)]
      simpa [unit, huw] using hone
    · have hunit := unit_nonpos (K := K) hstep
      linarith
  · intro a ha
    rw [Finset.sum_add_distrib, hm.boost.balance a ha, sum_unit hu hw]
    ring
  · intro a ha b hb
    obtain ⟨k, hk⟩ := hm.whole a ha b hb
    obtain ⟨l, hl⟩ := exists_unit_eq (K := K) u w a b
    refine ⟨k + l, ?_⟩
    simp only [hk, hl, Int.cast_add]
  · intro a b hab
    by_cases hmore : more a b = 0
    · have hunit : (unit u w a b : K) ≠ 0 := by simpa [hmore] using hab
      rcases ends_of_unit hunit with ⟨rfl, rfl⟩ | ⟨rfl, rfl⟩
      · exact ⟨Finset.mem_insert_of_mem hus, Finset.mem_insert_self _ _⟩
      · exact ⟨Finset.mem_insert_self _ _, Finset.mem_insert_of_mem hus⟩
    · exact (hm.mono (Finset.subset_insert w set)).support a b hmore

/-- A largest served set has no room left around it. -/
theorem exists_closed (h : n.Integral s t f) (hn : n.Whole n.room) (hs : s ∈ n.vertices) :
    ∃ set, n.Served f s set ∧ ∀ u ∈ set, ∀ w ∈ n.vertices, w ∉ set → n.room u w ≤ n.sent f u w := by
  classical
  obtain ⟨set, hset, hmost⟩ := (n.vertices.toFinset.powerset.filter (n.Served f s)).exists_max_image
    Finset.card ⟨{s}, Finset.mem_filter.mpr
      ⟨Finset.mem_powerset.mpr (served_source h.1 hs).1, served_source h.1 hs⟩⟩
  have hserved := (Finset.mem_filter.mp hset).2
  refine ⟨set, hserved, fun u hu w hw hws => ?_⟩
  by_contra hlt
  obtain ⟨hsub, hss, hmore⟩ := hserved
  obtain ⟨more, hm⟩ := hmore u hu
  have hstep := hm.step h hn (List.mem_toFinset.mp (hsub hu)) hw hu hws (not_le.mp hlt)
  have hlarger : n.Served f s (insert w set) := by
    refine ⟨Finset.insert_subset (List.mem_toFinset.mpr hw) hsub, Finset.mem_insert_of_mem hss, ?_⟩
    intro v hv
    rcases Finset.mem_insert.mp hv with rfl | hv
    · exact ⟨_, hstep⟩
    · obtain ⟨more, hm⟩ := hmore v hv
      exact ⟨more, hm.mono (Finset.subset_insert w set)⟩
  have hle := hmost (insert w set)
    (Finset.mem_filter.mpr ⟨Finset.mem_powerset.mpr hlarger.1, hlarger⟩)
  rw [Finset.card_insert_of_notMem hws] at hle
  omega

theorem Integral.raise_or_maximum (h : n.Integral s t f) (hn : n.Whole n.room)
    (hs : s ∈ n.vertices) (hst : s ≠ t) :
    (∃ g, n.Integral s t g ∧ g.value = f.value + 1) ∨ n.Maximum s t f := by
  obtain ⟨set, ⟨hsub, hss, hserved⟩, hfull⟩ := exists_closed h hn hs
  by_cases ht : t ∈ set
  · obtain ⟨more, hm⟩ := hserved t ht
    refine .inl ⟨_, ⟨hm.boost.carries h.1 hst hs, ?_⟩, rfl⟩
    intro u hu v hv
    rw [sent_flowOf hu hv]
    obtain ⟨a, ha⟩ := h.2 u hu v hv
    obtain ⟨b, hb⟩ := hm.whole u hu v hv
    exact ⟨a + b, by rw [ha, hb, Int.cast_add]⟩
  · exact .inr (h.1.maximum hsub hss ht (h.1.value_eq_cutRoom hsub hss ht hfull))

/-- Where all room is whole, some maximum flow is whole. -/
theorem exists_integral_maximum (hn : n.Whole n.room) (hs : s ∈ n.vertices) (hst : s ≠ t)
    (h : n.Integral s t f) : ∃ g, n.Maximum s t g ∧ n.Whole (n.sent g) := by
  obtain ⟨steps, hsteps⟩ := exists_nat_gt (n.cutRoom {s} - f.value)
  induction steps generalizing f with
  | zero =>
    have hle : f.value ≤ n.cutRoom {s} := h.1.value_le (by simpa using hs)
      (Finset.mem_singleton_self s) (by simpa using Ne.symm hst)
    norm_num at hsteps
    linarith
  | succ steps ih =>
    rcases h.raise_or_maximum hn hs hst with ⟨g, hg, hvalue⟩ | hmax
    · refine ih hg ?_
      push_cast at hsteps
      linarith
    · exact ⟨f, hmax, h.2⟩

end LPRounding.Network
