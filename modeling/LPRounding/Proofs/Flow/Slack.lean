import LPRounding.Proofs.Flow.Edges
import LPRounding.Proofs.Flow.Maximum

/-!
Cuts that are read off with a tolerance. What a maximum flow leaves within reach of the source may
have room left across it, but no more than the tolerance between any two vertices, and none between
vertices that no arc joins.
-/

namespace LPRounding

set_option linter.unusedSectionVars false

theorem sum_le_of_kept {α K : Type} [Field K] [LinearOrder K] [IsStrictOrderedRing K] {es : List α}
    {counts keep : α → Bool} {x w : α → K} {a slack : K}
    (hkept : (((es.filter keep).filter counts).map x).sum ≤
      a + slack * ((es.filter keep).map w).sum)
    (hout : ∀ e ∈ es, keep e = false → (if counts e then x e else 0) ≤ slack * w e) :
    ((es.filter counts).map x).sum ≤ a + slack * (es.map w).sum := by
  have hsplit : ((es.filter counts).map x).sum + slack * ((es.filter keep).map w).sum ≤
      (((es.filter keep).filter counts).map x).sum + slack * (es.map w).sum := by
    simp only [sum_map_filter, ← List.sum_map_mul_left, ← List.sum_map_add]
    refine List.sum_le_sum fun e he => ?_
    by_cases hk : keep e = true
    · simp [hk]
    · simpa [hk] using hout e he (by simpa using hk)
  linarith

namespace Network

variable {V K : Type} [DecidableEq V] [Field K] [LinearOrder K] [IsStrictOrderedRing K]
  [FloorRing K]

/-- The pairs of vertices across a set that an arc with room joins, whichever way it leads. -/
def joints (n : Network V K) (near : Finset V) : Finset (V × V) :=
  (near ×ˢ (n.vertices.toFinset \ near)).filter fun e => n.room e.1 e.2 ≠ 0 ∨ n.room e.2 e.1 ≠ 0

variable {n : Network V K} {s t u v : V} {f : Flow K} {near : Finset V}

theorem Carries.sent_eq_zero (h : n.Carries s t f) (hu : u ∈ n.vertices) (hv : v ∈ n.vertices)
    (huv : n.room u v = 0) (hvu : n.room v u = 0) : n.sent f u v = 0 := by
  have hle := h.within u hu v hv
  have hge := h.within v hv u hu
  rw [h.skew v hv u hu, hvu] at hge
  rw [huv] at hle
  exact le_antisymm hle (neg_nonpos.mp hge)

theorem Carries.cutRoom_le (h : n.Carries s t f) (hn : near ⊆ n.vertices.toFinset) (hs : s ∈ near)
    (ht : t ∉ near) {slack : K} (hfull : ∀ u ∈ near, ∀ v ∈ n.vertices, v ∉ near →
      n.room u v - n.sent f u v ≤ slack) :
    n.cutRoom near ≤ f.value + slack * (n.joints near).card := by
  have hmem {e : V × V} (he : e ∈ near ×ˢ (n.vertices.toFinset \ near)) :
      e.1 ∈ near ∧ e.2 ∈ n.vertices ∧ e.2 ∉ near := by
    obtain ⟨hu, hv⟩ := Finset.mem_product.mp he
    obtain ⟨hv, hvn⟩ := Finset.mem_sdiff.mp hv
    exact ⟨hu, List.mem_toFinset.mp hv, hvn⟩
  have hgap : n.cutRoom near - f.value =
      ∑ e ∈ near ×ˢ (n.vertices.toFinset \ near), (n.room e.1 e.2 - n.sent f e.1 e.2) := by
    rw [h.value_eq hn hs ht, cutRoom, Finset.sum_product, ← Finset.sum_sub_distrib]
    exact Finset.sum_congr rfl fun u _ => (Finset.sum_sub_distrib _ _).symm
  -- pairs that no arc joins have no room and carry nothing
  have hjoined : n.cutRoom near - f.value =
      ∑ e ∈ n.joints near, (n.room e.1 e.2 - n.sent f e.1 e.2) := by
    rw [hgap, joints, Finset.sum_filter_of_ne]
    intro e he hne
    obtain ⟨hu, hv, -⟩ := hmem he
    by_contra hno
    push Not at hno
    refine hne ?_
    rw [hno.1, h.sent_eq_zero (List.mem_toFinset.mp (hn hu)) hv hno.1 hno.2, sub_zero]
  have hsum : n.cutRoom near - f.value ≤ (n.joints near).card • slack := by
    rw [hjoined]
    refine Finset.sum_le_card_nsmul _ _ _ fun e he => ?_
    obtain ⟨hu, hv, hvn⟩ := hmem (Finset.mem_filter.mp he).1
    exact hfull _ hu _ hv hvn
  rw [nsmul_eq_mul, mul_comm] at hsum
  exact sub_le_iff_le_add'.mp hsum

/-- What the source of a maximum flow reaches is a side of a cut that the flow fills, up to the
tolerance for each of the pairs that are joined across it. -/
theorem Maximum.cutRoom_le (h : n.Maximum s t f) (hv : n.Valid) (hst : s ≠ t)
    (hs : s ∈ n.vertices) {tolerance : K} (h0 : 0 ≤ tolerance) :
    let near := (n.reachable f tolerance (n.place s)).toFinset
    near ⊆ n.vertices.toFinset ∧ s ∈ near ∧ t ∉ near ∧
      n.cutRoom near ≤ f.value + tolerance * (n.joints near).card := by
  intro near
  have hmem {v : V} : v ∈ near ↔
      v ∈ n.vertices ∧ Relation.ReflTransGen (Residual n f tolerance) s v := by
    rw [List.mem_toFinset, h.1.mem_reachable hv h0 hs]
  obtain ⟨hsn, htn⟩ := h.separates hv hst hs h0
  have hsub : near ⊆ n.vertices.toFinset := fun v hvn => List.mem_toFinset.mpr (hmem.mp hvn).1
  have hsn : s ∈ near := List.mem_toFinset.mpr hsn
  have htn : t ∉ near := fun ht => htn (List.mem_toFinset.mp ht)
  refine ⟨hsub, hsn, htn, h.1.cutRoom_le hsub hsn htn fun u hu v hvv hvn => ?_⟩
  obtain ⟨huv, hsu⟩ := hmem.mp hu
  by_contra hlt
  exact hvn (hmem.mpr ⟨hvv, hsu.tail ⟨huv, hvv, not_le.mp hlt⟩⟩)

theorem Maximum.le_value_iff (h : n.Maximum s t f) (hv : n.Valid) (hst : s ≠ t)
    (hs : s ∈ n.vertices) {a : K} : a ≤ f.value ↔
      ∀ near ⊆ n.vertices.toFinset, s ∈ near → t ∉ near → a ≤ n.cutRoom near := by
  refine ⟨fun ha near hsub hsn htn => ha.trans (h.1.value_le hsub hsn htn), fun hcut => ?_⟩
  obtain ⟨hsub, hsn, htn, hle⟩ := h.cutRoom_le hv hst hs le_rfl
  rw [zero_mul, add_zero] at hle
  exact (hcut _ hsub hsn htn).trans hle

theorem card_joints_le {α : Type} (es : List α) (a b : α → V)
    (h : ∀ u v, n.room u v ≠ 0 → ∃ e ∈ es, (u = a e ∧ v = b e) ∨ (u = b e ∧ v = a e)) :
    (n.joints near).card ≤ es.countP fun e => decide (a e ∈ near) != decide (b e ∈ near) := by
  let turned (e : α) : V × V := if a e ∈ near then (a e, b e) else (b e, a e)
  let crossing := es.filter fun e => decide (a e ∈ near) != decide (b e ∈ near)
  have hsub : n.joints near ⊆ (crossing.map turned).toFinset := by
    rintro ⟨u, v⟩ he
    obtain ⟨hpair, hroom⟩ := Finset.mem_filter.mp he
    obtain ⟨hu, hfar⟩ := Finset.mem_product.mp hpair
    have hu : u ∈ near := hu
    have hv : v ∉ near := (Finset.mem_sdiff.mp hfar).2
    clear he hpair hfar
    obtain ⟨e, he, hends⟩ : ∃ e ∈ es, (u = a e ∧ v = b e) ∨ (u = b e ∧ v = a e) := by
      rcases hroom with hroom | hroom
      · exact h u v hroom
      · obtain ⟨e, he, hends⟩ := h v u hroom
        exact ⟨e, he, hends.symm.imp And.symm And.symm⟩
    rw [List.mem_toFinset, List.mem_map]
    rcases hends with ⟨rfl, rfl⟩ | ⟨rfl, rfl⟩
    · exact ⟨e, List.mem_filter.mpr ⟨he, by simp [hu, hv]⟩, if_pos hu⟩
    · exact ⟨e, List.mem_filter.mpr ⟨he, by simp [hu, hv]⟩, if_neg hv⟩
  calc (n.joints near).card
      ≤ (crossing.map turned).toFinset.card := Finset.card_le_card hsub
    _ ≤ (crossing.map turned).length := List.toFinset_card_le _
    _ = _ := by rw [List.length_map, List.countP_eq_length_filter]

section Edges

variable {α : Type} {a b : α → V} {c : α → K} {es : List α}

theorem exists_between (h : between a b c es u v ≠ 0) :
    ∃ e ∈ es, (u = a e ∧ v = b e) ∨ (u = b e ∧ v = a e) := by
  by_contra hno
  push Not at hno
  refine h (List.sum_eq_zero fun x hx => ?_)
  obtain ⟨e, he, rfl⟩ := List.mem_map.mp hx
  obtain ⟨h₁, h₂⟩ := hno e he
  rw [if_neg fun h => h₁ h.1 h.2, if_neg fun h => h₂ h.1 h.2, add_zero]

theorem Spread.card_joints_le (h : n.Spread (between a b c es)) (near : Finset V) :
    (n.joints near).card ≤ es.countP fun e => decide (a e ∈ near) != decide (b e ∈ near) := by
  refine Network.card_joints_le es a b fun u v hroom => exists_between (c := c) fun hno => hroom ?_
  unfold room
  split
  · rfl
  · rcases h.link u v with ⟨hl, -⟩ | hl
    · rw [hl]
      rfl
    · rw [hl, hno]
      exact max_self 0

end Edges

end Network

end LPRounding
