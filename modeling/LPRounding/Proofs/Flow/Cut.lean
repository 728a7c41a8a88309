import LPRounding.Proofs.Flow.Network
import LPRounding.Proofs.Graph.Reach
import LPRounding.Flow.Cut

/-!
Flows and cuts. No flow sends more than a cut has room for. Where a flow is as large as flows can
be, nothing leads on from the source to the sink, and where it is whole as well, the vertices that
a tolerance below one lets the source reach are the near side of a cut that it fills.
-/

set_option linter.unusedSectionVars false

namespace LPRounding.Network

variable {V K : Type} [DecidableEq V] [Field K] [LinearOrder K] [IsStrictOrderedRing K]
  [FloorRing K]

def sent (n : Network V K) (f : Flow K) (u v : V) : K := f.net (n.place u) (n.place v)

/-- A flow from `s` to `t`: what one vertex sends the other receives, no arc carries more than it
can, and nothing is lost on the way. -/
structure Carries (n : Network V K) (s t : V) (f : Flow K) : Prop where
  skew : ∀ u ∈ n.vertices, ∀ v ∈ n.vertices, n.sent f u v = -n.sent f v u
  within : ∀ u ∈ n.vertices, ∀ v ∈ n.vertices, n.sent f u v ≤ n.room u v
  conserved : ∀ u ∈ n.vertices, u ≠ s → u ≠ t → ∑ v ∈ n.vertices.toFinset, n.sent f u v = 0
  value : ∑ v ∈ n.vertices.toFinset, n.sent f s v = f.value

/-- Room from the near side of a cut to the far side. -/
def cutRoom (n : Network V K) (near : Finset V) : K :=
  ∑ u ∈ near, ∑ v ∈ n.vertices.toFinset \ near, n.room u v

variable {n : Network V K} {s t : V} {f : Flow K} {near : Finset V}

theorem room_le_cutRoom {u v : V} (hu : u ∈ near) (hv : v ∈ n.vertices) (hn : v ∉ near) :
    n.room u v ≤ n.cutRoom near := by
  have hfar : v ∈ n.vertices.toFinset \ near :=
    Finset.mem_sdiff.mpr ⟨List.mem_toFinset.mpr hv, hn⟩
  calc n.room u v
      ≤ ∑ w ∈ n.vertices.toFinset \ near, n.room u w :=
        Finset.single_le_sum (fun w _ => n.room_nonneg u w) hfar
    _ ≤ n.cutRoom near :=
        Finset.single_le_sum (f := fun u => ∑ w ∈ n.vertices.toFinset \ near, n.room u w)
          (fun u _ => Finset.sum_nonneg fun w _ => n.room_nonneg u w) hu

theorem Carries.value_eq (h : n.Carries s t f) (hn : near ⊆ n.vertices.toFinset) (hs : s ∈ near)
    (ht : t ∉ near) :
    f.value = ∑ u ∈ near, ∑ v ∈ n.vertices.toFinset \ near, n.sent f u v := by
  have hmem {u : V} (hu : u ∈ near) : u ∈ n.vertices := List.mem_toFinset.mp (hn hu)
  have hall : ∑ u ∈ near, ∑ v ∈ n.vertices.toFinset, n.sent f u v = f.value := by
    rw [← h.value, Finset.sum_eq_single_of_mem s hs]
    intro u hu hus
    refine h.conserved u (hmem hu) hus ?_
    rintro rfl
    exact ht hu
  have hinside : ∑ u ∈ near, ∑ v ∈ near, n.sent f u v = 0 := by
    have hneg : ∑ u ∈ near, ∑ v ∈ near, n.sent f u v =
        -∑ u ∈ near, ∑ v ∈ near, n.sent f u v := by
      conv_rhs => rw [Finset.sum_comm]
      rw [← Finset.sum_neg_distrib]
      refine Finset.sum_congr rfl fun u hu => ?_
      rw [← Finset.sum_neg_distrib]
      exact Finset.sum_congr rfl fun v hv => h.skew u (hmem hu) v (hmem hv)
    linarith
  rw [← hall, ← add_zero (∑ u ∈ near, ∑ v ∈ n.vertices.toFinset \ near, _), ← hinside,
    ← Finset.sum_add_distrib]
  exact Finset.sum_congr rfl fun u _ => (Finset.sum_sdiff hn).symm

theorem Carries.value_le (h : n.Carries s t f) (hn : near ⊆ n.vertices.toFinset) (hs : s ∈ near)
    (ht : t ∉ near) : f.value ≤ n.cutRoom near := by
  rw [h.value_eq hn hs ht]
  refine Finset.sum_le_sum fun u hu => Finset.sum_le_sum fun v hv => ?_
  exact h.within u (List.mem_toFinset.mp (hn hu)) v
    (List.mem_toFinset.mp (Finset.mem_sdiff.mp hv).1)

theorem Carries.value_eq_cutRoom (h : n.Carries s t f) (hn : near ⊆ n.vertices.toFinset)
    (hs : s ∈ near) (ht : t ∉ near) (hfull : ∀ u ∈ near, ∀ v ∈ n.vertices, v ∉ near →
      n.room u v ≤ n.sent f u v) : f.value = n.cutRoom near := by
  rw [h.value_eq hn hs ht, cutRoom]
  refine Finset.sum_congr rfl fun u hu => Finset.sum_congr rfl fun v hv => ?_
  obtain ⟨hvv, hvn⟩ := Finset.mem_sdiff.mp hv
  have hvv := List.mem_toFinset.mp hvv
  exact le_antisymm (h.within u (List.mem_toFinset.mp (hn hu)) v hvv) (hfull u hu v hvv hvn)

theorem Carries.value_le_sum_room (h : n.Carries s t f) (hs : s ∈ n.vertices) (ht : t ∈ n.vertices)
    (hst : s ≠ t) : f.value ≤ ∑ u ∈ n.vertices.toFinset, n.room u t := by
  have hnear : n.cutRoom (n.vertices.toFinset.erase t) ≤ ∑ u ∈ n.vertices.toFinset, n.room u t := by
    rw [cutRoom, Finset.sdiff_erase_self (List.mem_toFinset.mpr ht)]
    simp only [Finset.sum_singleton]
    exact Finset.sum_le_sum_of_subset_of_nonneg (Finset.erase_subset _ _)
      fun u _ _ => n.room_nonneg u t
  calc f.value
      ≤ n.cutRoom (n.vertices.toFinset.erase t) :=
        h.value_le (Finset.erase_subset _ _)
          (Finset.mem_erase.mpr ⟨hst, List.mem_toFinset.mpr hs⟩) (Finset.notMem_erase _ _)
    _ ≤ ∑ u ∈ n.vertices.toFinset, n.room u t := hnear

theorem Carries.value_lt_plenty (h : n.Carries s t f) (hv : n.Valid) (hs : s ∈ n.vertices)
    (ht : t ∈ n.vertices) (hst : s ≠ t) (hfin : ∀ u, n.link? u t ≠ some none) :
    f.value < n.plenty :=
  (h.value_le_sum_room hs ht hst).trans_lt (hv.sum_room_lt_plenty hfin)

theorem Valid.three_mul_sum_room_le (hv : n.Valid) (hfin : ∀ u, n.link? u t ≠ some none) :
    3 * ∑ u ∈ n.vertices.toFinset, n.room u t ≤ n.plenty := by
  have := hv.sum_room_le_total hfin
  have := n.three_mul_total_le
  linarith

theorem Carries.sent_le_value (h : n.Carries s t f) (hs : s ∈ n.vertices)
    (hin : ∀ u ∈ n.vertices, n.room u s = 0) {v : V} (hv : v ∈ n.vertices) :
    n.sent f s v ≤ f.value := by
  rw [← h.value]
  refine Finset.single_le_sum (f := fun v => n.sent f s v) (fun u hu => ?_)
    (List.mem_toFinset.mpr hv)
  have hu := List.mem_toFinset.mp hu
  have hle := h.within u hu s hs
  rw [hin u hu, h.skew u hu s hs] at hle
  linarith

/-- More can be sent from one vertex to another, by more than the tolerance. -/
def Residual (n : Network V K) (f : Flow K) (tolerance : K) (u v : V) : Prop :=
  u ∈ n.vertices ∧ v ∈ n.vertices ∧ tolerance < n.room u v - n.sent f u v

theorem mem_ways_ends (h : n.Valid) {tolerance : K} {i j : Nat}
    (hw : (i, j) ∈ n.ways f tolerance) : i < n.vertices.length ∧ j < n.vertices.length := by
  simp only [ways, List.mem_flatMap, List.mem_append] at hw
  obtain ⟨a, ha, hw⟩ := hw
  have hin := h.inside a (List.mem_filter.mp ha).1
  rcases hw with hw | hw
  · split at hw
    · obtain ⟨rfl, rfl⟩ := Prod.mk.inj (List.mem_singleton.mp hw)
      exact hin
    · cases hw
  · split at hw
    · obtain ⟨rfl, rfl⟩ := Prod.mk.inj (List.mem_singleton.mp hw)
      exact hin.symm
    · cases hw

theorem Valid.not_mem_heads (h : n.Valid) {a : Arc Nat K} (ha : a ∈ n.openArcs) :
    a.tail ∉ (adjacency n.vertices.length
      (n.openArcs.map fun a => (a.tail, a.head))).getD a.head [] ↔
    ∀ b ∈ n.openArcs, ¬ (b.tail = a.head ∧ b.head = a.tail) := by
  rw [mem_adjacency, List.mem_map]
  have hlt := (h.inside a (List.mem_filter.mp ha).1).2
  constructor
  · rintro hno b hb ⟨h₁, h₂⟩
    exact hno ⟨hlt, b, hb, by rw [h₁, h₂]⟩
  · rintro hno ⟨-, b, hb, heq⟩
    exact hno b hb (Prod.mk.inj heq)

theorem Carries.mem_ways (h : n.Carries s t f) (hv : n.Valid) {tolerance : K}
    (htol : 0 ≤ tolerance) {u v : V} (hu : u ∈ n.vertices) (hw : v ∈ n.vertices) :
    (n.place u, n.place v) ∈ n.ways f tolerance ↔ Residual n f tolerance u v := by
  simp only [ways, List.mem_flatMap, List.mem_append, List.mem_ite_nil_right, List.mem_singleton,
    Prod.mk.injEq, decide_eq_true_eq, Bool.and_eq_true]
  constructor
  · rintro ⟨a, ha, ⟨hlt, hta, hha⟩ | ⟨⟨hno, hlt⟩, hha, hta⟩⟩
    · rw [hv.room_of_open ha hta.symm hha.symm, ← hta, ← hha] at hlt
      exact ⟨hu, hw, hlt⟩
    · rw [hv.not_mem_heads ha] at hno
      have hroom : n.room u v = 0 := by
        refine room_of_closed (fun b hb hbe => hno b hb ?_) hu
        exact ⟨hbe.1.trans hha, hbe.2.trans hta⟩
      rw [← hha, ← hta] at hlt
      refine ⟨hu, hw, ?_⟩
      rw [hroom]
      exact hlt
  · rintro ⟨-, -, hlt⟩
    by_cases hopen : ∃ a ∈ n.openArcs, a.tail = n.place u ∧ a.head = n.place v
    · obtain ⟨a, ha, hta, hha⟩ := hopen
      refine ⟨a, ha, .inl ⟨?_, hta.symm, hha.symm⟩⟩
      rw [hv.room_of_open ha hta hha, hta, hha]
      exact hlt
    · push Not at hopen
      have hroom : n.room u v = 0 :=
        room_of_closed (fun a ha hae => hopen a ha hae.1 hae.2) hu
      have hback : 0 < n.room v u := by
        have hle := h.within v hw u hu
        rw [h.skew v hw u hu] at hle
        rw [hroom] at hlt
        linarith
      obtain ⟨a, ha, hta, hha⟩ : ∃ a ∈ n.openArcs, a.tail = n.place v ∧ a.head = n.place u := by
        by_contra hno
        push Not at hno
        exact hback.ne' (room_of_closed (fun a ha hae => hno a ha hae.1 hae.2) hw)
      refine ⟨a, ha, .inr ⟨⟨(hv.not_mem_heads ha).mpr ?_, ?_⟩, hha.symm, hta.symm⟩⟩
      · rintro b hb ⟨h₁, h₂⟩
        exact hopen b hb (h₁.trans hha) (h₂.trans hta)
      · rw [hroom] at hlt
        rw [hha, hta]
        exact hlt

theorem Carries.leads_ways (h : n.Carries s t f) (hv : n.Valid) {tolerance : K}
    (htol : 0 ≤ tolerance) (hs : s ∈ n.vertices) {j : Nat} :
    Relation.ReflTransGen (fun a b => (a, b) ∈ n.ways f tolerance) (n.place s) j ↔
      ∃ v ∈ n.vertices, n.place v = j ∧ Relation.ReflTransGen (Residual n f tolerance) s v := by
  constructor
  · intro hj
    induction hj with
    | refl => exact ⟨s, hs, rfl, .refl⟩
    | tail _ hstep ih =>
      obtain ⟨u, hu, rfl, hsu⟩ := ih
      obtain ⟨w, hw, rfl⟩ := exists_place hv (mem_ways_ends hv hstep).2
      exact ⟨w, hw, rfl, hsu.tail ((h.mem_ways hv htol hu hw).mp hstep)⟩
  · rintro ⟨v, -, rfl, hsv⟩
    induction hsv with
    | refl => exact .refl
    | tail _ hstep ih => exact ih.tail ((h.mem_ways hv htol hstep.1 hstep.2.1).mpr hstep)

theorem Carries.mem_reachable (h : n.Carries s t f) (hv : n.Valid) {tolerance : K}
    (htol : 0 ≤ tolerance) (hs : s ∈ n.vertices) {v : V} :
    v ∈ n.reachable f tolerance (n.place s) ↔
      v ∈ n.vertices ∧ Relation.ReflTransGen (Residual n f tolerance) s v := by
  have hmem (j : Nat) :
      j ∈ reach ((adjacency n.vertices.length (n.ways f tolerance)).getD · [])
        n.vertices.length (n.place s) ↔
      ∃ v ∈ n.vertices, n.place v = j ∧
        Relation.ReflTransGen (Residual n f tolerance) s v := by
    have hends : ∀ p ∈ n.ways f tolerance, p.1 < n.vertices.length ∧ p.2 < n.vertices.length :=
      fun p hp => mem_ways_ends hv hp
    have hall : ∀ i ∈ Finset.range n.vertices.length,
        ∀ j ∈ (adjacency n.vertices.length (n.ways f tolerance)).getD i [],
          j ∈ Finset.range n.vertices.length := by
      intro i _ j hj
      exact Finset.mem_range.mpr (hends _ (mem_adjacency.mp hj).2).2
    rw [mem_reach (Finset.mem_range.mpr (place_lt hs)) hall (by simp),
      leads_adjacency fun p hp => (hends p hp).1, h.leads_ways hv htol hs]
  simp only [reachable, List.mem_map, List.mem_filter, decide_eq_true_eq, Prod.exists,
    exists_and_right, exists_eq_right]
  constructor
  · rintro ⟨i, hi, hseen⟩
    obtain ⟨w, hw, rfl, hsw⟩ := (hmem i).mp hseen
    have hget := List.mk_mem_zipIdx_iff_getElem?.mp hi
    rw [place, List.getElem?_idxOf hw] at hget
    obtain rfl := Option.some.inj hget
    exact ⟨hw, hsw⟩
  · rintro ⟨hv', hsv⟩
    refine ⟨n.place v, List.mk_mem_zipIdx_iff_getElem?.mpr (List.getElem?_idxOf hv'), ?_⟩
    exact (hmem _).mpr ⟨v, hv', rfl, hsv⟩

theorem Valid.nodup_reachable (h : n.Valid) (f : Flow K) (tolerance : K) (s : Nat) :
    (n.reachable f tolerance s).Nodup := by
  have hsub : (n.vertices.zipIdx.map Prod.fst).Nodup := by
    rw [List.zipIdx_map_fst]
    exact h.nodup
  exact hsub.sublist (List.filter_sublist.map _)

def flowOf (n : Network V K) (value : K) (amount : V → V → K) : Flow K where
  value := value
  net i j := (n.vertices[i]?).elim 0 fun u => (n.vertices[j]?).elim 0 fun v => amount u v

@[simp] theorem sent_flowOf {value : K} {amount : V → V → K} {u v : V} (hu : u ∈ n.vertices)
    (hv : v ∈ n.vertices) : n.sent (n.flowOf value amount) u v = amount u v := by
  simp [sent, flowOf, place, List.getElem?_idxOf hu, List.getElem?_idxOf hv]

/-- Amounts that can be sent on top of a flow, and take `gain` from `s` to `v`. -/
structure Boost (n : Network V K) (f : Flow K) (s v : V) (gain : K) (more : V → V → K) : Prop where
  skew : ∀ a b, more a b = -more b a
  within : ∀ a ∈ n.vertices, ∀ b ∈ n.vertices, n.sent f a b + more a b ≤ n.room a b
  balance : ∀ a ∈ n.vertices, ∑ b ∈ n.vertices.toFinset, more a b =
    gain * ((if a = s then 1 else 0) - if a = v then 1 else 0)

def unit (v w : V) (a b : V) : K :=
  (if a = v ∧ b = w then 1 else 0) - if a = w ∧ b = v then 1 else 0

theorem sum_unit {v w : V} (hv : v ∈ n.vertices) (hw : w ∈ n.vertices) (a : V) :
    ∑ b ∈ n.vertices.toFinset, (unit v w a b : K) =
      (if a = v then 1 else 0) - if a = w then 1 else 0 := by
  simp only [unit, Finset.sum_sub_distrib]
  congr 1
  · by_cases ha : a = v <;> simp [ha, hw]
  · by_cases ha : a = w <;> simp [ha, hv]

theorem unit_skew (v w a b : V) : (unit v w a b : K) = -unit v w b a := by
  simp only [unit, neg_sub, and_comm]

theorem unit_nonpos {v w a b : V} (h : ¬ (a = v ∧ b = w)) : (unit v w a b : K) ≤ 0 := by
  simp only [unit, if_neg h]
  split <;> norm_num

theorem Boost.step (h : n.Carries s t f) {v w : V} {gain : K} {more : V → V → K}
    (hb : n.Boost f s v gain more) (hg : 0 < gain) (hr : Residual n f 0 v w) :
    ∃ gain' more', 0 < gain' ∧ n.Boost f s w gain' more' := by
  obtain ⟨hv, hw, hres⟩ := hr
  let spare := n.room v w - n.sent f v w
  have hload : 0 < |more v w| + gain := by positivity
  let scale := min 1 (spare / (|more v w| + gain))
  have hscale : 0 < scale := lt_min one_pos (div_pos hres hload)
  have hone : scale ≤ 1 := min_le_left _ _
  have hfit : scale * (|more v w| + gain) ≤ spare :=
    calc scale * (|more v w| + gain)
        ≤ spare / (|more v w| + gain) * (|more v w| + gain) :=
          mul_le_mul_of_nonneg_right (min_le_right _ _) hload.le
      _ = spare := div_mul_cancel₀ _ hload.ne'
  have hmix {a b : V} (ha : a ∈ n.vertices) (hb' : b ∈ n.vertices) :
      n.sent f a b + scale * more a b ≤ n.room a b := by
    have h₁ := mul_le_mul_of_nonneg_left (hb.within a ha b hb') hscale.le
    have h₂ := mul_le_mul_of_nonneg_left (h.within a ha b hb') (sub_nonneg.mpr hone)
    linarith
  refine ⟨scale * gain, fun a b => scale * more a b + scale * gain * unit v w a b,
    mul_pos hscale hg, ?_, ?_, ?_⟩
  · intro a b
    rw [hb.skew a b, unit_skew]
    ring
  · intro a ha b hb'
    have hgain : 0 ≤ scale * gain := (mul_pos hscale hg).le
    by_cases hstep : a = v ∧ b = w
    · obtain ⟨rfl, rfl⟩ := hstep
      have hle : scale * more a b ≤ scale * |more a b| :=
        mul_le_mul_of_nonneg_left (le_abs_self _) hscale.le
      have hunit : (unit a b a b : K) ≤ 1 := by
        simp only [unit]
        split <;> split <;> norm_num
      have hu := mul_le_mul_of_nonneg_left hunit hgain
      have hspare : spare = n.room a b - n.sent f a b := rfl
      linarith
    · have hu := mul_le_mul_of_nonneg_left (unit_nonpos (K := K) hstep) hgain
      have := hmix ha hb'
      linarith
  · intro a ha
    rw [Finset.sum_add_distrib, ← Finset.mul_sum, ← Finset.mul_sum, hb.balance a ha,
      sum_unit hv hw]
    ring

theorem Carries.exists_boost (h : n.Carries s t f) {v : V}
    (hr : Relation.ReflTransGen (Residual n f 0) s v) :
    ∃ gain more, 0 < gain ∧ n.Boost f s v gain more := by
  induction hr with
  | refl =>
    refine ⟨1, fun _ _ => 0, one_pos, by simp, ?_, by simp⟩
    intro a ha b hb
    rw [add_zero]
    exact h.within a ha b hb
  | tail _ hstep ih =>
    obtain ⟨gain, more, hg, hb⟩ := ih
    exact hb.step h hg hstep

/-- A flow with a boost on top is a flow. -/
theorem Boost.carries (h : n.Carries s t f) {gain : K} {more : V → V → K}
    (hb : n.Boost f s t gain more) (hst : s ≠ t) (hs : s ∈ n.vertices) :
    n.Carries s t (n.flowOf (f.value + gain) fun u v => n.sent f u v + more u v) := by
  have hsum {u : V} (hu : u ∈ n.vertices) :
      ∑ v ∈ n.vertices.toFinset, n.sent (n.flowOf (f.value + gain)
        fun u v => n.sent f u v + more u v) u v =
      ∑ v ∈ n.vertices.toFinset, n.sent f u v +
        gain * ((if u = s then 1 else 0) - if u = t then 1 else 0) := by
    rw [← hb.balance u hu, ← Finset.sum_add_distrib]
    exact Finset.sum_congr rfl fun v hv => sent_flowOf hu (List.mem_toFinset.mp hv)
  refine ⟨?_, ?_, ?_, ?_⟩
  · intro u hu v hv
    rw [sent_flowOf hu hv, sent_flowOf hv hu, h.skew u hu v hv, hb.skew u v]
    ring
  · intro u hu v hv
    rw [sent_flowOf hu hv]
    exact hb.within u hu v hv
  · intro u hu hus hut
    rw [hsum hu, h.conserved u hu hus hut, if_neg hus, if_neg hut]
    ring
  · rw [hsum hs, h.value, if_pos rfl, if_neg hst]
    change f.value + gain * (1 - 0) = f.value + gain
    ring

/-- No flow has a larger value. -/
def Maximum (n : Network V K) (s t : V) (f : Flow K) : Prop :=
  n.Carries s t f ∧ ∀ g, n.Carries s t g → g.value ≤ f.value

theorem Carries.maximum (h : n.Carries s t f) (hn : near ⊆ n.vertices.toFinset) (hs : s ∈ near)
    (ht : t ∉ near) (heq : f.value = n.cutRoom near) : n.Maximum s t f :=
  ⟨h, fun _ hg => (hg.value_le hn hs ht).trans heq.ge⟩

theorem Maximum.not_residual (h : n.Maximum s t f) (hst : s ≠ t) (hs : s ∈ n.vertices) :
    ¬ Relation.ReflTransGen (Residual n f 0) s t := by
  intro hr
  obtain ⟨gain, more, hg, hb⟩ := h.1.exists_boost hr
  have hle := h.2 _ (hb.carries h.1 hst hs)
  change f.value + gain ≤ f.value at hle
  linarith

def Whole (n : Network V K) (amount : V → V → K) : Prop :=
  ∀ u ∈ n.vertices, ∀ v ∈ n.vertices, ∃ k : ℤ, amount u v = k

theorem Valid.whole_room (h : n.Valid)
    (hc : ∀ u v c, n.link? u v = some (some c) → ∃ k : ℤ, c = k) : n.Whole n.room := by
  have htotal : (n.openArcs.filterMap Arc.bound?).sum ∈ (Int.castRingHom K).range := by
    refine list_sum_mem fun c hmem => ?_
    obtain ⟨a, ha, hac⟩ := List.mem_filterMap.mp hmem
    rw [bound?_eq] at hac
    have harc := (List.mem_filter.mp ha).1
    obtain ⟨u, -, hu⟩ := exists_place h (h.inside a harc).1
    obtain ⟨v, -, hv⟩ := exists_place h (h.inside a harc).2
    obtain ⟨k, hk⟩ := hc u v c (hac ▸ h.link?_of_mem harc hu.symm hv.symm)
    exact ⟨k, hk.symm⟩
  obtain ⟨total, htotal⟩ := htotal
  have hplenty : ∃ k : ℤ, n.plenty = k := by
    simp only [plenty, Scalar.sum_eq, Scalar.ofInt_eq, beq_iff_eq, ← htotal]
    split
    · exact ⟨1, by simp⟩
    · exact ⟨3 * total, by simp⟩
  intro u _ v _
  unfold room
  split
  · exact ⟨0, by simp⟩
  cases hl : n.link? u v with
  | none => exact ⟨0, by simp⟩
  | some c =>
    cases c with
    | none => exact hplenty
    | some c =>
      obtain ⟨k, rfl⟩ := hc u v c hl
      exact ⟨max k 0, by simp⟩

theorem residual_iff_of_whole (hn : n.Whole n.room) (hf : n.Whole (n.sent f)) {tolerance : K}
    (h0 : 0 ≤ tolerance) (h1 : tolerance < 1) {u v : V} :
    Residual n f tolerance u v ↔ Residual n f 0 u v := by
  refine and_congr_right fun hu => and_congr_right fun hv => ?_
  obtain ⟨a, ha⟩ := hn u hu v hv
  obtain ⟨b, hb⟩ := hf u hu v hv
  rw [ha, hb]
  constructor
  · exact h0.trans_lt
  · intro hlt
    have hpos : 0 < a - b := by exact_mod_cast hlt
    have hone : (1 : K) ≤ a - b := by exact_mod_cast Int.add_one_le_iff.mpr hpos
    exact h1.trans_le hone

/-- The vertices that the source reaches are the near side of a cut without any room left. -/
theorem Maximum.value_eq_cutRoom (h : n.Maximum s t f) (hv : n.Valid) (hst : s ≠ t)
    (hs : s ∈ n.vertices) (hn : n.Whole n.room) (hf : n.Whole (n.sent f)) {tolerance : K}
    (h0 : 0 ≤ tolerance) (h1 : tolerance < 1) :
    let near := (n.reachable f tolerance (n.place s)).toFinset
    near ⊆ n.vertices.toFinset ∧ s ∈ near ∧ t ∉ near ∧ f.value = n.cutRoom near := by
  intro near
  have hmem {v : V} : v ∈ near ↔ v ∈ n.vertices ∧ Relation.ReflTransGen (Residual n f 0) s v := by
    have hres : Residual n f tolerance = Residual n f 0 := by
      funext u v
      exact propext (residual_iff_of_whole hn hf h0 h1)
    rw [List.mem_toFinset, h.1.mem_reachable hv h0 hs, hres]
  have hsub : near ⊆ n.vertices.toFinset := fun v hvn => List.mem_toFinset.mpr (hmem.mp hvn).1
  have hsn : s ∈ near := hmem.mpr ⟨hs, .refl⟩
  have htn : t ∉ near := fun ht => h.not_residual hst hs (hmem.mp ht).2
  refine ⟨hsub, hsn, htn, ?_⟩
  refine h.1.value_eq_cutRoom hsub hsn htn fun u hu v hvv hvn => ?_
  obtain ⟨huv, hsu⟩ := hmem.mp hu
  by_contra hlt
  exact hvn (hmem.mpr ⟨hvv, hsu.tail ⟨huv, hvv, sub_pos.mpr (not_le.mp hlt)⟩⟩)

theorem Valid.unbounded_path (h : n.Valid) (hs : s ∈ n.vertices) (ht : t ∈ n.vertices)
    (hjoin : n.joinsUnbounded (n.place s) (n.place t) = true) :
    Relation.ReflTransGen (fun u v => n.link? u v = some none) s t := by
  let wide := (n.openArcs.filter fun a => a.bound?.isNone).map fun a => (a.tail, a.head)
  have hwide {e : Nat × Nat} (he : e ∈ wide) : ∃ a ∈ n.arcs, a.capacity = none ∧
      e = (a.tail, a.head) := by
    obtain ⟨a, ha, rfl⟩ := List.mem_map.mp he
    obtain ⟨ha, hbound⟩ := List.mem_filter.mp ha
    exact ⟨a, (List.mem_filter.mp ha).1, by simpa using hbound, rfl⟩
  have hends {e : Nat × Nat} (he : e ∈ wide) :
      e.1 < n.vertices.length ∧ e.2 < n.vertices.length := by
    obtain ⟨a, ha, -, rfl⟩ := hwide he
    exact h.inside a ha
  have hall : ∀ i ∈ Finset.range n.vertices.length,
      ∀ j ∈ (adjacency n.vertices.length wide).getD i [], j ∈ Finset.range n.vertices.length := by
    intro i _ j hj
    exact Finset.mem_range.mpr (hends (mem_adjacency.mp hj).2).2
  have hreach : n.place t ∈ reach ((adjacency n.vertices.length wide).getD · [])
      n.vertices.length (n.place s) := of_decide_eq_true hjoin
  rw [mem_reach (Finset.mem_range.mpr (place_lt hs)) hall (by simp),
    leads_adjacency fun e he => (hends he).1] at hreach
  have hpath {j : Nat} (hj : Relation.ReflTransGen (fun a b => (a, b) ∈ wide) (n.place s) j) :
      ∃ v ∈ n.vertices, n.place v = j ∧
        Relation.ReflTransGen (fun u v => n.link? u v = some none) s v := by
    induction hj with
    | refl => exact ⟨s, hs, rfl, .refl⟩
    | tail _ he ih =>
      obtain ⟨u, -, rfl, hsu⟩ := ih
      obtain ⟨a, ha, hc, heq⟩ := hwide he
      obtain ⟨htail, rfl⟩ := Prod.mk.inj heq
      obtain ⟨v, hv, hhead⟩ := exists_place h (h.inside a ha).2
      exact ⟨v, hv, hhead, hsu.tail (hc ▸ h.link?_of_mem ha htail.symm hhead.symm)⟩
  obtain ⟨v, -, hvt, hsv⟩ := hpath hreach
  rwa [(place_inj ht).mp hvt.symm]

theorem Valid.not_joinsUnbounded (h : n.Valid) (hs : s ∈ n.vertices) (ht : t ∈ n.vertices)
    (hst : s ≠ t) (hno : ∀ u, n.link? u t ≠ some none) :
    n.joinsUnbounded (n.place s) (n.place t) = false := by
  by_contra hjoin
  rcases (h.unbounded_path hs ht (Bool.eq_true_of_not_eq_false hjoin)).cases_tail with heq | hlast
  · exact hst heq.symm
  · obtain ⟨u, -, hu⟩ := hlast
    exact hno u hu

end LPRounding.Network

namespace LPRounding.FlowFinder

variable {V K : Type} [DecidableEq V] [Field K] [LinearOrder K] [IsStrictOrderedRing K]
  [FloorRing K]

/-- The finder is asked for flows between different vertices that unbounded arcs alone do not
join. -/
def Asked (n : Network V K) (s t : V) : Prop :=
  n.Valid ∧ s ∈ n.vertices ∧ t ∈ n.vertices ∧ s ≠ t ∧
    n.joinsUnbounded (n.place s) (n.place t) = false

/-- What is found is a flow. -/
def Sound (find : FlowFinder V K) : Prop :=
  ∀ n s t, Asked n s t → n.Carries s t (find n (n.place s) (n.place t))

/-- Where all room is whole, what is found is a maximum flow of whole amounts. -/
def Exact (find : FlowFinder V K) : Prop :=
  ∀ n s t, Asked n s t → n.Whole n.room → n.Maximum s t (find n (n.place s) (n.place t)) ∧
    n.Whole (n.sent (find n (n.place s) (n.place t)))

theorem of_siteCut {find : FlowFinder Site K} {n : Network Site K} (h : n.Valid) {tolerance : K}
    {s t : Site} {c : Cut Site K} (hc : n.siteCut find tolerance s t = .ok c) :
    Asked n s t ∧ c.value = (find n (n.place s) (n.place t)).value ∧
      c.reachable = n.reachable (find n (n.place s) (n.place t)) tolerance (n.place s) := by
  simp only [Network.siteCut, Network.minCut] at hc
  split at hc
  · cases hc
  next hst =>
  split at hc
  · cases hc
  next hs =>
  split at hc
  · cases hc
  next ht =>
  split at hc
  · cases hc
  next hj =>
  obtain rfl := Except.ok.inj hc
  exact ⟨⟨h, not_not.mp hs, not_not.mp ht, hst, by simpa using hj⟩, rfl, rfl⟩

theorem exists_siteCut (find : FlowFinder Site K) {n : Network Site K} (h : n.Valid) {s t : Site}
    (hs : s ∈ n.vertices) (ht : t ∈ n.vertices) (hst : s ≠ t)
    (hno : ∀ u, n.link? u t ≠ some none) (tolerance : K) :
    ∃ c, n.siteCut find tolerance s t = .ok c := by
  simp only [Network.siteCut, Network.minCut, if_neg hst, hs, ht, not_true_eq_false, if_false,
    h.not_joinsUnbounded hs ht hst hno, Bool.false_eq_true]
  exact ⟨_, rfl⟩

end LPRounding.FlowFinder

namespace LPRounding.Cut

variable {K : Type} [Field K] [LinearOrder K] [IsStrictOrderedRing K] [FloorRing K]

theorem mem_nodes {c : Cut Site K} {v : Node} : v ∈ c.nodes ↔ .vertex v ∈ c.reachable := by
  rw [nodes, List.mem_filterMap]
  constructor
  · rintro ⟨s, hs, h⟩
    cases s <;> simp at h
    exact h ▸ hs
  · intro h
    exact ⟨_, h, rfl⟩

theorem nodup_nodes {c : Cut Site K} (h : c.reachable.Nodup) : c.nodes.Nodup := by
  refine List.Nodup.filterMap ?_ h
  intro s t v hs ht
  cases s <;> cases t <;> simp_all

end LPRounding.Cut
