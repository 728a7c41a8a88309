import LPRounding.Proofs.Graph.Route

/-!
The search from both ends finds a path whenever there is one. A side whose last layer is empty holds
all neighbours of its vertices, so it holds the other end as well; until then each layer that does
not meet the other side adds a vertex.
-/

namespace LPRounding

set_option linter.unusedSectionVars false

variable {V : Type} [DecidableEq V] {next : V → List V} {all : Finset V} {u v : V}

namespace Trails

variable {t near far : Trails V}

def Found (t : Trails V) (v : V) : Prop := ∃ p ∈ t.all, p.head? = some v

/-- What a side of the search keeps: each of its vertices lies in `all` and has one path, and only
those of the last layer may have neighbours that are not found yet. -/
structure Growing (next : V → List V) (all : Finset V) (t : Trails V) : Prop where
  distinct : (t.all.map List.head?).Nodup
  inside : ∀ p ∈ t.all, ∃ v ∈ all, p.head? = some v
  recent : t.fringe ⊆ t.all
  closed : ∀ p ∈ t.all, p ∉ t.fringe → ∀ v, p.head? = some v → ∀ w ∈ next v, t.Found w

theorem growing_start (hv : v ∈ all) : (start v).Growing next all := by
  refine ⟨List.nodup_singleton _, ?_, List.Subset.refl _, ?_⟩
  · intro p hp
    obtain rfl := List.mem_singleton.mp hp
    exact ⟨v, hv, rfl⟩
  · intro p hp hno
    exact absurd hp hno

theorem nodup_fresh (found ps : List (List V)) : ((fresh found ps).map List.head?).Nodup := by
  induction ps generalizing found with
  | nil => exact List.nodup_nil
  | cons p ps ih =>
    rw [fresh]
    split
    · exact ih found
    · rw [List.map_cons, List.nodup_cons]
      refine ⟨fun hmem => ?_, ih _⟩
      obtain ⟨q, hq, heq⟩ := List.mem_map.mp hmem
      exact (mem_fresh hq).2 p List.mem_cons_self heq.symm

theorem exists_fresh {found ps : List (List V)} {p : List V} (hp : p ∈ ps) :
    ∃ q ∈ found ++ fresh found ps, q.head? = p.head? := by
  induction ps generalizing found with
  | nil => cases hp
  | cons r ps ih =>
    rw [fresh]
    split
    · next hany =>
      rcases List.mem_cons.mp hp with rfl | hp
      · obtain ⟨q, hq, heq⟩ := List.any_eq_true.mp hany
        exact ⟨q, List.mem_append_left _ hq, of_decide_eq_true heq⟩
      · exact ih hp
    · rcases List.mem_cons.mp hp with rfl | hp
      · exact ⟨p, List.mem_append_right _ List.mem_cons_self, rfl⟩
      · obtain ⟨q, hq, heq⟩ : ∃ q ∈ (r :: found) ++ fresh (r :: found) ps,
            q.head? = p.head? := ih hp
        refine ⟨q, ?_, heq⟩
        simp only [List.cons_append, List.mem_cons, List.mem_append] at hq ⊢
        tauto

theorem Found.grow (h : t.Found v) : (t.grow next).Found v := by
  obtain ⟨p, hp, hhead⟩ := h
  exact ⟨p, List.mem_append_left _ hp, hhead⟩

theorem Growing.grow (h : t.Growing next all) (hall : ∀ v ∈ all, ∀ w ∈ next v, w ∈ all) :
    (t.grow next).Growing next all := by
  refine ⟨?_, ?_, List.subset_append_right _ _, ?_⟩
  · rw [Trails.grow, List.map_append, List.nodup_append]
    refine ⟨h.distinct, nodup_fresh _ _, ?_⟩
    rintro a ha b hb rfl
    obtain ⟨p, hp, rfl⟩ := List.mem_map.mp ha
    obtain ⟨q, hq, heq⟩ := List.mem_map.mp hb
    exact (mem_fresh hq).2 p hp heq.symm
  · intro p hp
    rcases List.mem_append.mp hp with hp | hp
    · exact h.inside p hp
    · obtain ⟨q, hq, a, ha, b, hb, rfl⟩ := mem_steps.mp (mem_fresh hp).1
      obtain ⟨a', ha', heq⟩ := h.inside q (h.recent hq)
      obtain rfl : a' = a := Option.some.inj (heq.symm.trans ha)
      exact ⟨b, hall a' ha' b hb, rfl⟩
  · intro p hp hno v hv w hw
    have hp : p ∈ t.all := (List.mem_append.mp hp).resolve_right hno
    by_cases hlast : p ∈ t.fringe
    · exact exists_fresh (mem_steps.mpr ⟨p, hlast, v, hv, w, hw, rfl⟩)
    · exact (h.closed p hp hlast v hv w hw).grow

theorem Growing.length_le (h : t.Growing next all) : t.all.length ≤ all.card := by
  have hsub : (t.all.map List.head?).toFinset ⊆ all.image some := by
    intro a ha
    obtain ⟨p, hp, rfl⟩ := List.mem_map.mp (List.mem_toFinset.mp ha)
    obtain ⟨v, hv, heq⟩ := h.inside p hp
    exact heq ▸ Finset.mem_image_of_mem some hv
  calc t.all.length = (t.all.map List.head?).toFinset.card := by
        rw [List.toFinset_card_of_nodup h.distinct, List.length_map]
    _ ≤ (all.image some).card := Finset.card_le_card hsub
    _ ≤ all.card := Finset.card_image_le

theorem Growing.found_of_leads (h : t.Growing next all) (hlast : t.fringe = []) (hu : t.Found u)
    (huv : Leads next u v) : t.Found v := by
  induction huv with
  | refl => exact hu
  | tail _ hw ih =>
    obtain ⟨p, hp, hhead⟩ := ih
    refine h.closed p hp ?_ _ hhead _ hw
    rw [hlast]
    exact List.not_mem_nil

/-- As long as the sides are apart, neither of them has come to an end. -/
theorem Growing.fringe_ne_nil (h : near.Growing next all) (ha : Apart near far)
    (hu : near.Found u) (hv : far.Found v) (huv : Leads next u v) : near.fringe ≠ [] := by
  intro hlast
  obtain ⟨p, hp, hpv⟩ := h.found_of_leads hlast hu huv
  obtain ⟨q, hq, hqv⟩ := hv
  exact ha p hp q hq (hpv.trans hqv.symm)

theorem length_lt_grow (h : (t.grow next).fringe ≠ []) :
    t.all.length < (t.grow next).all.length := by
  have hpos := List.length_pos_iff.mpr h
  simp only [Trails.grow, List.length_append] at hpos ⊢
  omega

end Trails

theorem searchPath_ne_none (hall : ∀ v ∈ all, ∀ w ∈ next v, w ∈ all) (huv : Leads next u v)
    (hvu : Leads next v u) {layers : Nat} {near far : Trails V} (hnear : near.Growing next all)
    (hfar : far.Growing next all) (ha : Trails.Apart near far) (hu : near.Found u)
    (hv : far.Found v) (hlayers : 2 * all.card < layers + near.all.length + far.all.length) :
    searchPath next layers near far ≠ none := by
  induction layers generalizing near far with
  | zero =>
    have hn := hnear.length_le
    have hf := hfar.length_le
    omega
  | succ layers ih =>
    have hnonempty : (near.fringe.isEmpty || far.fringe.isEmpty) = false := by
      rw [Bool.or_eq_false_iff, List.isEmpty_eq_false_iff, List.isEmpty_eq_false_iff]
      exact ⟨hnear.fringe_ne_nil ha hu hv huv, hfar.fringe_ne_nil ha.symm hv hu hvu⟩
    rw [searchPath, hnonempty, if_neg Bool.false_ne_true]
    split
    · split
      · exact Option.some_ne_none _
      · next hm =>
        have ha := ha.grow hm
        have hgrow := hnear.grow hall
        have hlt := Trails.length_lt_grow (hgrow.fringe_ne_nil ha hu.grow hv huv)
        exact ih hgrow hfar ha hu.grow hv (by omega)
    · split
      · exact Option.some_ne_none _
      · next hm =>
        have ha := ha.symm.grow hm
        have hgrow := hfar.grow hall
        have hlt := Trails.length_lt_grow (hgrow.fringe_ne_nil ha hv.grow hu hvu)
        exact ih hnear hgrow ha.symm hu hv.grow (by omega)

theorem shortestPath_ne_none {size : Nat} (hall : ∀ v ∈ all, ∀ w ∈ next v, w ∈ all) (hu : u ∈ all)
    (hv : v ∈ all) (hsize : all.card ≤ size) (huv : Leads next u v) (hvu : Leads next v u) :
    shortestPath next size u v ≠ none := by
  rw [shortestPath]
  split
  · exact Option.some_ne_none _
  · next hne =>
    refine searchPath_ne_none hall huv hvu (Trails.growing_start hu) (Trails.growing_start hv) ?_
      ⟨[u], List.mem_singleton_self _, rfl⟩ ⟨[v], List.mem_singleton_self _, rfl⟩ (by omega)
    intro p hp q hq heq
    obtain rfl := List.mem_singleton.mp hp
    obtain rfl := List.mem_singleton.mp hq
    exact hne (Option.some.inj heq)

section Route

variable {vertices : List Node} {pairs : List (Node × Node)} {a b : Node}

/-- Connected vertices have a path between them. -/
theorem shortestPath_places (hends : ∀ p ∈ pairs, p.1 ∈ vertices ∧ p.2 ∈ vertices)
    (ha : a ∈ vertices) (hb : b ∈ vertices) (hab : Joined pairs a b) :
    shortestPath ((adjacency vertices.length (bothWays (places vertices pairs))).getD · [])
      vertices.length (vertices.idxOf a) (vertices.idxOf b) ≠ none := by
  have hbound := bounded_places hends
  refine shortestPath_ne_none (fun i _ j hj => ?_)
    (Finset.mem_range.mpr (List.idxOf_lt_length_of_mem ha))
    (Finset.mem_range.mpr (List.idxOf_lt_length_of_mem hb)) (by simp)
    ((leads_bothWays hbound).mpr (joined_places hab))
    ((leads_bothWays hbound).mpr (joined_places hab.symm))
  exact Finset.mem_range.mpr (lt_of_mem_bothWays hbound hj)

end Route

end LPRounding
