import LPRounding.Proofs.Graph.Joined
import LPRounding.Graph.Basic

/-!
The search by layers finds exactly what can be reached, and a list of vertices passes the test of
being connected only when it is.
-/

namespace LPRounding

section Search

variable {V : Type} [DecidableEq V] {next : V → List V}

def Leads (next : V → List V) : V → V → Prop := Relation.ReflTransGen fun a b => b ∈ next a

theorem mem_unseen {seen fresh xs : List V} {v : V} :
    v ∈ unseen seen fresh xs ↔ v ∈ fresh ∨ (v ∈ xs ∧ v ∉ seen) := by
  induction xs generalizing fresh with
  | nil => simp [unseen]
  | cons x xs ih =>
    rw [unseen, ih]
    by_cases hx : x ∈ seen
    · simp only [hx, decide_true, Bool.true_or, if_true, List.mem_cons]
      constructor
      · rintro (h | ⟨h, h'⟩)
        · exact .inl h
        · exact .inr ⟨.inr h, h'⟩
      · rintro (h | ⟨rfl | h, h'⟩)
        · exact .inl h
        · exact absurd hx h'
        · exact .inr ⟨h, h'⟩
    · by_cases hf : x ∈ fresh
      · simp only [hf, decide_true, Bool.or_true, if_true, List.mem_cons]
        constructor
        · rintro (h | ⟨h, h'⟩)
          · exact .inl h
          · exact .inr ⟨.inr h, h'⟩
        · rintro (h | ⟨rfl | h, h'⟩)
          · exact .inl h
          · exact .inl hf
          · exact .inr ⟨h, h'⟩
      · simp only [hx, hf, decide_false, Bool.or_false, Bool.false_eq_true, if_false,
          List.mem_cons]
        constructor
        · rintro ((rfl | h) | ⟨h, h'⟩)
          · exact .inr ⟨.inl rfl, hx⟩
          · exact .inl h
          · exact .inr ⟨.inr h, h'⟩
        · rintro (h | ⟨rfl | h, h'⟩)
          · exact .inl (.inr h)
          · exact .inl (.inl rfl)
          · exact .inr ⟨h, h'⟩

theorem nodup_unseen {seen fresh xs : List V} (h : fresh.Nodup) : (unseen seen fresh xs).Nodup := by
  induction xs generalizing fresh with
  | nil => exact h
  | cons x xs ih =>
    rw [unseen]
    split
    · exact ih h
    · next hx =>
      have hf : x ∉ fresh := by
        intro hf
        exact hx (by simp [hf])
      exact ih (List.nodup_cons.mpr ⟨hf, h⟩)

/-- The state of a search whose vertices all lie in `all`: only those that came last may lead to
others. -/
structure Spreading (next : V → List V) (all : Finset V) (seen last : List V) : Prop where
  nodup : seen.Nodup
  inside : ∀ v ∈ seen, v ∈ all
  recent : last ⊆ seen
  closed : ∀ v ∈ seen, v ∉ last → ∀ w ∈ next v, w ∈ seen

theorem Spreading.grow {all : Finset V} {seen last : List V} (h : Spreading next all seen last)
    (hall : ∀ v ∈ all, ∀ w ∈ next v, w ∈ all) :
    Spreading next all (unseen seen [] (last.flatMap next) ++ seen)
      (unseen seen [] (last.flatMap next)) := by
  have hmem {v : V} : v ∈ unseen seen [] (last.flatMap next) ↔
      (∃ u ∈ last, v ∈ next u) ∧ v ∉ seen := by simp [mem_unseen]
  refine ⟨?_, ?_, List.subset_append_left _ _, ?_⟩
  · refine List.nodup_append.mpr ⟨nodup_unseen List.nodup_nil, h.nodup, ?_⟩
    rintro v hv _ hv' rfl
    exact (hmem.mp hv).2 hv'
  · intro v hv
    rcases List.mem_append.mp hv with hv | hv
    · obtain ⟨⟨u, hu, huv⟩, -⟩ := hmem.mp hv
      exact hall u (h.inside u (h.recent hu)) v huv
    · exact h.inside v hv
  · intro v hv hn w hw
    have hv : v ∈ seen := (List.mem_append.mp hv).resolve_left hn
    by_cases hs : w ∈ seen
    · exact List.mem_append_right _ hs
    · by_cases hl : v ∈ last
      · exact List.mem_append_left _ (hmem.mpr ⟨⟨v, hl, hw⟩, hs⟩)
      · exact absurd (h.closed v hv hl w hw) hs

theorem seen_subset_spread {layers : Nat} {seen last : List V} :
    seen ⊆ spread next layers seen last := by
  induction layers generalizing seen last with
  | zero => exact List.Subset.refl _
  | succ layers ih =>
    rw [spread]
    split
    · exact List.Subset.refl _
    · exact List.Subset.trans (List.subset_append_right _ _) ih

theorem leads_of_mem_spread {layers : Nat} {start : V} {seen last : List V}
    (hs : ∀ v ∈ seen, Leads next start v) (hl : last ⊆ seen) {v : V}
    (hv : v ∈ spread next layers seen last) : Leads next start v := by
  induction layers generalizing seen last with
  | zero => exact hs v hv
  | succ layers ih =>
    rw [spread] at hv
    split at hv
    · exact hs v hv
    · refine ih ?_ (List.subset_append_left _ _) hv
      intro w hw
      rcases List.mem_append.mp hw with hw | hw
      · obtain ⟨⟨u, hu, huw⟩, -⟩ : (∃ u ∈ last, w ∈ next u) ∧ w ∉ seen := by
          simpa [mem_unseen] using hw
        exact (hs u (hl hu)).tail huw
      · exact hs w hw

theorem Spreading.result {all : Finset V} {seen last : List V} {layers : Nat}
    (h : Spreading next all seen last) (hall : ∀ v ∈ all, ∀ w ∈ next v, w ∈ all)
    (hf : all.card < layers + seen.length) :
    Spreading next all (spread next layers seen last) [] := by
  induction layers generalizing seen last with
  | zero =>
    have hle := Finset.card_le_card (s := seen.toFinset) (t := all) fun v hv =>
      h.inside v (List.mem_toFinset.mp hv)
    rw [List.toFinset_card_of_nodup h.nodup] at hle
    omega
  | succ layers ih =>
    rw [spread]
    have hgrow := h.grow hall
    split
    · next he =>
      rw [he, List.nil_append] at hgrow
      exact hgrow
    · next he =>
      refine ih hgrow ?_
      have hpos := List.length_pos_iff.mpr he
      rw [List.length_append]
      omega

theorem spreading_reach {all : Finset V} {size : Nat} {start : V} (hs : start ∈ all)
    (hall : ∀ v ∈ all, ∀ w ∈ next v, w ∈ all) (hsize : all.card ≤ size) :
    Spreading next all (reach next size start) [] := by
  refine Spreading.result ?_ hall (by simpa using hsize)
  refine ⟨List.nodup_singleton start, ?_, List.Subset.refl _, ?_⟩
  · intro v hv
    exact List.mem_singleton.mp hv ▸ hs
  · intro v hv hn
    exact absurd hv hn

theorem mem_reach {all : Finset V} {size : Nat} {start v : V} (hs : start ∈ all)
    (hall : ∀ v ∈ all, ∀ w ∈ next v, w ∈ all) (hsize : all.card ≤ size) :
    v ∈ reach next size start ↔ Leads next start v := by
  constructor
  · intro hv
    refine leads_of_mem_spread (fun w hw => ?_) (List.Subset.refl _) hv
    obtain rfl := List.mem_singleton.mp hw
    exact .refl
  · intro hv
    have hr := spreading_reach hs hall hsize
    induction hv with
    | refl => exact seen_subset_spread (List.mem_singleton_self start)
    | tail _ hw ih => exact hr.closed _ ih (List.not_mem_nil) _ hw

end Search

theorem size_adjacency {size : Nat} {pairs : List (Nat × Nat)} :
    (adjacency size pairs).size = size := by
  induction pairs with
  | nil => simp [adjacency]
  | cons p pairs ih => simpa [adjacency] using ih

theorem mem_adjacency {size i j : Nat} {pairs : List (Nat × Nat)} :
    j ∈ (adjacency size pairs).getD i [] ↔ i < size ∧ (i, j) ∈ pairs := by
  induction pairs with
  | nil => simp [adjacency, Array.getD]
  | cons p pairs ih =>
    obtain ⟨a, b⟩ := p
    have hsize : (adjacency size pairs).size = size := size_adjacency
    have hcons : adjacency size ((a, b) :: pairs) =
        (adjacency size pairs).modify a (b :: ·) := rfl
    rw [hcons]
    by_cases hi : i < size
    · have hget (xs : Array (List Nat)) (h : i < xs.size) : xs.getD i [] = xs[i] := by
        simp [Array.getD, h]
      rw [hget _ (by simpa [hsize] using hi)] at ih ⊢
      rw [Array.getElem_modify]
      by_cases ha : a = i
      · subst ha
        simp [ih, hi]
      · have hne : ¬ i = a := fun h => ha h.symm
        simp [ih, hi, ha, hne]
    · simp [Array.getD, hsize, hi]

theorem mem_bothWays {pairs : List (Nat × Nat)} {i j : Nat} :
    (i, j) ∈ bothWays pairs ↔ Adjacent pairs i j := by
  simp only [bothWays, List.mem_flatMap, Adjacent]
  constructor
  · rintro ⟨⟨a, b⟩, hp, h⟩
    split at h
    · next heq =>
      obtain ⟨rfl, rfl⟩ := Prod.mk.inj (List.mem_singleton.mp h)
      exact .inl hp
    · rcases List.mem_cons.mp h with h | h
      · obtain ⟨rfl, rfl⟩ := Prod.mk.inj h
        exact .inl hp
      · obtain ⟨rfl, rfl⟩ := Prod.mk.inj (List.mem_singleton.mp h)
        exact .inr hp
  · rintro (h | h)
    · exact ⟨(i, j), h, by by_cases hij : i = j <;> simp [hij]⟩
    · exact ⟨(j, i), h, by by_cases hij : j = i <;> simp [hij]⟩

def Bounded (size : Nat) (pairs : List (Nat × Nat)) : Prop :=
  ∀ p ∈ pairs, p.1 < size ∧ p.2 < size

section Component

variable {size i j : Nat} {pairs : List (Nat × Nat)}

theorem leads_adjacency (hb : ∀ p ∈ pairs, p.1 < size) :
    Leads ((adjacency size pairs).getD · []) i j ↔
      Relation.ReflTransGen (fun a b => (a, b) ∈ pairs) i j := by
  have hstep (a b : Nat) : b ∈ (adjacency size pairs).getD a [] ↔ (a, b) ∈ pairs := by
    rw [mem_adjacency, and_iff_right_iff_imp]
    exact fun h => hb _ h
  simp only [Leads, hstep]

theorem lt_of_mem_bothWays (hb : Bounded size pairs)
    (hj : j ∈ (adjacency size (bothWays pairs)).getD i []) : j < size := by
  rcases mem_bothWays.mp (mem_adjacency.mp hj).2 with h | h
  · exact (hb _ h).2
  · exact (hb _ h).1

theorem leads_bothWays (hb : Bounded size pairs) :
    Leads ((adjacency size (bothWays pairs)).getD · []) i j ↔ Joined pairs i j := by
  rw [leads_adjacency]
  · simp only [mem_bothWays]
    rfl
  · intro p hp
    rcases mem_bothWays.mp hp with h | h
    · exact (hb _ h).1
    · exact (hb _ h).2

theorem spreading_component (hb : Bounded size pairs) (hi : i < size) :
    Spreading ((adjacency size (bothWays pairs)).getD · []) (Finset.range size)
      (component size pairs i) [] := by
  refine spreading_reach (Finset.mem_range.mpr hi) ?_ (by simp)
  intro v _ w hw
  exact Finset.mem_range.mpr (lt_of_mem_bothWays hb hw)

theorem mem_component (hb : Bounded size pairs) (hi : i < size) :
    j ∈ component size pairs i ↔ Joined pairs i j := by
  have hall : ∀ v ∈ Finset.range size, ∀ w ∈ (adjacency size (bothWays pairs)).getD v [],
      w ∈ Finset.range size := by
    intro v _ w hw
    exact Finset.mem_range.mpr (lt_of_mem_bothWays hb hw)
  rw [component, mem_reach (Finset.mem_range.mpr hi) hall (by simp), leads_bothWays hb]

theorem joined_of_joinsAll (hb : Bounded size pairs) (h : joinsAll size pairs = true)
    (hi : i < size) (hj : j < size) : Joined pairs i j := by
  obtain ⟨hpos, hlen⟩ : 0 < size ∧ (component size pairs 0).length = size := by
    simpa [joinsAll] using h
  have hs := spreading_component hb hpos
  have hall : (component size pairs 0).toFinset = Finset.range size := by
    refine Finset.eq_of_subset_of_card_le ?_ ?_
    · intro v hv
      exact hs.inside v (List.mem_toFinset.mp hv)
    · rw [List.toFinset_card_of_nodup hs.nodup, Finset.card_range, hlen]
  have hmem {k : Nat} (hk : k < size) : Joined pairs 0 k := by
    rw [← mem_component hb hpos, ← List.mem_toFinset, hall, Finset.mem_range]
    exact hk
  exact (hmem hi).symm.trans (hmem hj)

end Component

section Vertices

variable {vertices : List Node} {pairs : List (Node × Node)} {u : Node}

theorem bounded_places (h : ∀ p ∈ pairs, p.1 ∈ vertices ∧ p.2 ∈ vertices) :
    Bounded vertices.length (places vertices pairs) := by
  rintro _ hq
  obtain ⟨p, hp, rfl⟩ := List.mem_map.mp hq
  exact ⟨List.idxOf_lt_length_of_mem (h p hp).1, List.idxOf_lt_length_of_mem (h p hp).2⟩

theorem adjacent_of_places (h : ∀ p ∈ pairs, p.1 ∈ vertices ∧ p.2 ∈ vertices)
    (hu : u ∈ vertices) {j : Nat} (ha : Adjacent (places vertices pairs) (vertices.idxOf u) j) :
    ∃ v ∈ vertices, vertices.idxOf v = j ∧ Adjacent pairs u v := by
  rcases ha with ha | ha
  · obtain ⟨⟨a, b⟩, hp, heq⟩ := List.mem_map.mp ha
    obtain ⟨hau, rfl⟩ := Prod.mk.inj heq
    obtain rfl : a = u := (List.idxOf_inj (h _ hp).1).mp hau
    exact ⟨b, (h _ hp).2, rfl, .inl hp⟩
  · obtain ⟨⟨a, b⟩, hp, heq⟩ := List.mem_map.mp ha
    obtain ⟨rfl, hbu⟩ := Prod.mk.inj heq
    obtain rfl : b = u := (List.idxOf_inj (h _ hp).2).mp hbu
    exact ⟨a, (h _ hp).1, rfl, .inr hp⟩

theorem joined_of_places (h : ∀ p ∈ pairs, p.1 ∈ vertices ∧ p.2 ∈ vertices)
    (hu : u ∈ vertices) {j : Nat} (hj : Joined (places vertices pairs) (vertices.idxOf u) j) :
    ∃ v ∈ vertices, vertices.idxOf v = j ∧ Joined pairs u v := by
  induction hj with
  | refl => exact ⟨u, hu, rfl, .refl⟩
  | tail _ hstep ih =>
    obtain ⟨v, hv, rfl, huv⟩ := ih
    obtain ⟨w, hw, heq, hvw⟩ := adjacent_of_places h hv hstep
    exact ⟨w, hw, heq, huv.tail hvw⟩

theorem joined_of_connectedTo (h : ∀ p ∈ pairs, p.1 ∈ vertices ∧ p.2 ∈ vertices)
    (hu : u ∈ vertices) {v : Node} (hv : v ∈ connectedTo vertices pairs u) : Joined pairs u v := by
  obtain ⟨j, hj, hv⟩ := List.mem_filterMap.mp hv
  rw [mem_component (bounded_places h) (List.idxOf_lt_length_of_mem hu)] at hj
  obtain ⟨w, hw, rfl, huw⟩ := joined_of_places h hu hj
  rw [List.getElem?_idxOf hw] at hv
  exact Option.some.inj hv ▸ huw

theorem connected_of_isConnected (h : ∀ p ∈ pairs, p.1 ∈ vertices ∧ p.2 ∈ vertices)
    (hc : isConnected vertices pairs = true) : Connected vertices pairs := by
  intro u hu v hv
  have hj := joined_of_joinsAll (bounded_places h) hc (List.idxOf_lt_length_of_mem hu)
    (List.idxOf_lt_length_of_mem hv)
  obtain ⟨w, hw, heq, huw⟩ := joined_of_places h hu hj
  exact (List.idxOf_inj hw).mp heq ▸ huw

theorem joined_places {v : Node} (h : Joined pairs u v) :
    Joined (places vertices pairs) (vertices.idxOf u) (vertices.idxOf v) :=
  h.lift vertices.idxOf fun _ _ hab =>
    hab.imp (fun h => List.mem_map.mpr ⟨_, h, rfl⟩) fun h => List.mem_map.mpr ⟨_, h, rfl⟩

theorem isConnected_of_connected (h : ∀ p ∈ pairs, p.1 ∈ vertices ∧ p.2 ∈ vertices)
    (hn : vertices.Nodup) (hne : vertices ≠ []) (hc : Connected vertices pairs) :
    isConnected vertices pairs = true := by
  have hpos := List.length_pos_of_ne_nil hne
  have hb := bounded_places h
  have hs := spreading_component hb hpos
  have hall : (component vertices.length (places vertices pairs) 0).toFinset =
      Finset.range vertices.length := by
    refine Finset.Subset.antisymm (fun j hj => hs.inside j (List.mem_toFinset.mp hj)) ?_
    intro j hj
    have hj := Finset.mem_range.mp hj
    have hjoined : Joined (places vertices pairs) _ _ :=
      joined_places (hc _ (List.getElem_mem hpos) _ (List.getElem_mem hj))
    rw [hn.idxOf_getElem, hn.idxOf_getElem] at hjoined
    exact List.mem_toFinset.mpr ((mem_component hb hpos).mpr hjoined)
  have hlength := congrArg Finset.card hall
  rw [List.toFinset_card_of_nodup hs.nodup, Finset.card_range] at hlength
  simp [isConnected, joinsAll, hlength, hpos]

/-- A graph that passes the test stays connected without any one of its pairs. -/
theorem connected_of_isTwoEdgeConnected {vertices : List Node} {pairs : List (Node × Node)}
    (h : ∀ p ∈ pairs, p.1 ∈ vertices ∧ p.2 ∈ vertices)
    (htwo : isTwoEdgeConnected vertices pairs = true) {i : Nat} (hi : i < pairs.length) :
    Connected vertices (pairs.eraseIdx i) := by
  simp only [isTwoEdgeConnected, Bool.and_eq_true, List.all_eq_true, List.mem_range] at htwo
  have hall := htwo.2 i (by simpa [places] using hi)
  refine connected_of_isConnected (fun p hp => h p (List.mem_of_mem_eraseIdx hp)) ?_
  rw [isConnected, places, ← List.eraseIdx_map]
  exact hall

theorem exists_degree_eq {v : Node} (h : Joined pairs u v) (huv : u ≠ v) :
    ∃ i < pairs.length, degree pairs u = degree (pairs.eraseIdx i) u + 1 := by
  let side (w : Node) : Bool := decide (w = u)
  have hside : side u ≠ side v := by simpa [side] using huv.symm
  obtain ⟨e, he, hcross⟩ := h.exists_crossing hside
  obtain ⟨i, hi, rfl⟩ := List.getElem_of_mem he
  refine ⟨i, hi, ?_⟩
  have hfst := (List.getElem_cons_eraseIdx_perm hi).countP_eq fun e => decide (e.1 = u)
  have hsnd := (List.getElem_cons_eraseIdx_perm hi).countP_eq fun e => decide (e.2 = u)
  simp only [degree, ← List.countP_eq_length_filter]
  rw [← hfst, ← hsnd, List.countP_cons, List.countP_cons]
  by_cases h₁ : pairs[i].1 = u <;> by_cases h₂ : pairs[i].2 = u <;>
    simp [side, h₁, h₂] at hcross ⊢ <;> omega

/-- Three or more vertices that stay connected without any one of the pairs pass the test. -/
theorem isTwoEdgeConnected_of_connected (h : ∀ p ∈ pairs, p.1 ∈ vertices ∧ p.2 ∈ vertices)
    (hn : vertices.Nodup) (hsize : 3 ≤ vertices.length)
    (hc : ∀ i, Connected vertices (pairs.eraseIdx i)) :
    isTwoEdgeConnected vertices pairs = true := by
  have hne : vertices ≠ [] := by
    rintro rfl
    simp at hsize
  have hwhole : Connected vertices pairs := by
    have hlast := hc pairs.length
    rwa [List.eraseIdx_of_length_le le_rfl] at hlast
  have hdegree : ∀ v ∈ vertices, 2 ≤ degree pairs v := by
    intro v hv
    obtain ⟨w, hw, hvw⟩ : ∃ w ∈ vertices, v ≠ w := by
      by_contra hall
      push Not at hall
      have hsame : vertices[0] = vertices[1] :=
        (hall _ (List.getElem_mem _)).symm.trans (hall _ (List.getElem_mem _))
      have := (hn.getElem_inj_iff).mp hsame
      omega
    obtain ⟨i, -, hi⟩ := exists_degree_eq (hwhole v hv w hw) hvw
    obtain ⟨k, -, hk⟩ := exists_degree_eq (hc i v hv w hw) hvw
    omega
  simp only [isTwoEdgeConnected, Bool.and_eq_true, List.all_eq_true, List.mem_range,
    decide_eq_true_eq]
  refine ⟨⟨⟨hsize, hdegree⟩, isConnected_of_connected h hn hne hwhole⟩, fun i _ => ?_⟩
  have herase := isConnected_of_connected (fun p hp => h p (List.mem_of_mem_eraseIdx hp)) hn hne
    (hc i)
  rwa [isConnected, places, ← List.eraseIdx_map] at herase

end Vertices

end LPRounding
