import LPRounding.Proofs.Graph.Reach

/-!
Paths that a search from both ends finds. Each side keeps paths without repeats back to its own
end, and the sides have no vertex in common before they meet, so what they make together repeats no
vertex either.
-/

namespace LPRounding

set_option linter.unusedSectionVars false

variable {V : Type} {pairs more : List (V × V)} {u v : V}

structure IsPath (pairs : List (V × V)) (u v : V) (path : List V) : Prop where
  nodup : path.Nodup
  head : path.head? = some u
  last : path.getLast? = some v
  steps : path.IsChain (Adjacent pairs)

theorem joined_of_chain {path : List V} (h : path.IsChain (Adjacent pairs))
    (hu : path.head? = some u) (hv : v ∈ path) : Joined pairs u v := by
  induction path generalizing u with
  | nil => cases hv
  | cons a rest ih =>
    obtain rfl : a = u := Option.some.inj hu
    rcases List.mem_cons.mp hv with rfl | hv
    · exact .refl
    · cases rest with
      | nil => cases hv
      | cons b rest =>
        obtain ⟨hab, hc⟩ := List.isChain_cons_cons.mp h
        exact .head hab (ih hc rfl hv)

namespace Trails

variable [DecidableEq V] {next : V → List V} {r : V} {t : Trails V}

/-- Paths back to `r`, whose vertices all have a path of their own. -/
structure Valid (pairs : List (V × V)) (r : V) (t : Trails V) : Prop where
  trails : ∀ p ∈ t.all, p.Nodup ∧ p.getLast? = some r ∧ p.IsChain (Adjacent pairs)
  closed : ∀ p ∈ t.all, ∀ v ∈ p, ∃ q ∈ t.all, q.head? = some v
  fringe : t.fringe ⊆ t.all

theorem mem_steps {p : List V} :
    p ∈ t.steps next ↔ ∃ q ∈ t.fringe, ∃ a, q.head? = some a ∧ ∃ b ∈ next a, b :: q = p := by
  simp only [steps, List.mem_flatMap, List.mem_map]
  refine exists_congr fun q => and_congr_right fun _ => ?_
  cases q.head? <;> simp

theorem mem_fresh {found ps : List (List V)} {p : List V} (h : p ∈ fresh found ps) :
    p ∈ ps ∧ ∀ q ∈ found, q.head? ≠ p.head? := by
  induction ps generalizing found with
  | nil => cases h
  | cons q rest ih =>
    rw [fresh] at h
    split at h
    · exact ⟨List.mem_cons_of_mem _ (ih h).1, (ih h).2⟩
    · next hq =>
      rcases List.mem_cons.mp h with rfl | h
      · exact ⟨List.mem_cons_self, by simpa using hq⟩
      · exact ⟨List.mem_cons_of_mem _ (ih h).1,
          fun q' hq' => (ih h).2 q' (List.mem_cons_of_mem _ hq')⟩

theorem valid_start (pairs : List (V × V)) (r : V) : (start r).Valid pairs r := by
  refine ⟨?_, ?_, List.Subset.refl _⟩
  · intro p hp
    obtain rfl := List.mem_singleton.mp hp
    exact ⟨List.nodup_singleton r, rfl, List.isChain_singleton r⟩
  · intro p hp v hv
    obtain rfl := List.mem_singleton.mp hp
    obtain rfl := List.mem_singleton.mp hv
    exact ⟨[v], List.mem_singleton_self _, rfl⟩

theorem Valid.grow (h : t.Valid pairs r) (hn : ∀ a, ∀ b ∈ next a, Adjacent pairs a b) :
    (t.grow next).Valid pairs r := by
  have hnew {p : List V} (hp : p ∈ fresh t.all (t.steps next)) :
      ∃ q ∈ t.all, ∃ a b, q.head? = some a ∧ b ∈ next a ∧ p = b :: q ∧ b ∉ q := by
    obtain ⟨hs, hf⟩ := mem_fresh hp
    obtain ⟨q, hq, a, ha, b, hb, rfl⟩ := mem_steps.mp hs
    refine ⟨q, h.fringe hq, a, b, ha, hb, rfl, fun hbq => ?_⟩
    obtain ⟨q', hq', hhead⟩ := h.closed q (h.fringe hq) b hbq
    exact hf q' hq' hhead
  refine ⟨?_, ?_, List.subset_append_right _ _⟩
  · intro p hp
    rcases List.mem_append.mp hp with hp | hp
    · exact h.trails p hp
    · obtain ⟨q, hq, a, b, ha, hb, rfl, hbq⟩ := hnew hp
      obtain ⟨hnd, hlast, hchain⟩ := h.trails q hq
      obtain ⟨rest, rfl⟩ : ∃ rest, q = a :: rest := by
        cases q with
        | nil => cases ha
        | cons c rest => exact ⟨rest, by rw [Option.some.inj ha]⟩
      refine ⟨List.nodup_cons.mpr ⟨hbq, hnd⟩, ?_, ?_⟩
      · rw [List.getLast?_cons_cons]
        exact hlast
      · exact List.isChain_cons_cons.mpr ⟨(hn a b hb).symm, hchain⟩
  · intro p hp v hv
    rcases List.mem_append.mp hp with hp | hp
    · obtain ⟨q, hq, hhead⟩ := h.closed p hp v hv
      exact ⟨q, List.mem_append_left _ hq, hhead⟩
    · obtain ⟨q, hq, a, b, -, -, rfl, -⟩ := hnew hp
      rcases List.mem_cons.mp hv with rfl | hv
      · exact ⟨v :: q, List.mem_append_right _ hp, rfl⟩
      · obtain ⟨q', hq', hhead⟩ := h.closed q hq v hv
        exact ⟨q', List.mem_append_left _ hq', hhead⟩

/-- No vertex has been found from both ends. -/
def Apart (near far : Trails V) : Prop := ∀ p ∈ near.all, ∀ q ∈ far.all, p.head? ≠ q.head?

theorem Apart.symm {near far : Trails V} (h : Apart near far) : Apart far near :=
  fun p hp q hq => (h q hq p hp).symm

theorem Apart.grow {near far : Trails V} (h : Apart near far) (hm : near.meet next far = none) :
    Apart (near.grow next) far := by
  intro p hp q hq
  rcases List.mem_append.mp hp with hp | hp
  · exact h p hp q hq
  · intro heq
    have hno := List.findSome?_eq_none_iff.mp hm p (mem_fresh hp).1
    rw [Option.map_eq_none_iff, List.find?_eq_none] at hno
    exact hno q hq (by simpa using heq.symm)

theorem Apart.disjoint {near far : Trails V} {a b : V} (h : Apart near far)
    (hn : near.Valid pairs a) (hf : far.Valid pairs b) {p q : List V} (hp : p ∈ near.all)
    (hq : q ∈ far.all) : p.Disjoint q := by
  intro v hvp hvq
  obtain ⟨p', hp', hph⟩ := hn.closed p hp v hvp
  obtain ⟨q', hq', hqh⟩ := hf.closed q hq v hvq
  exact h p' hp' q' hq' (hph.trans hqh.symm)

theorem Valid.isPath {near far : Trails V} (hn : near.Valid pairs u) (hf : far.Valid pairs v)
    (h : Apart near far) {p q : List V} (hp : p ∈ near.all) (hq : q ∈ far.all)
    (hs : ∀ a ∈ p.head?, ∀ b ∈ q.head?, Adjacent pairs a b) :
    IsPath pairs u v (p.reverse ++ q) := by
  obtain ⟨hpn, hpl, hpc⟩ := hn.trails p hp
  obtain ⟨hqn, hql, hqc⟩ := hf.trails q hq
  refine ⟨?_, ?_, ?_, ?_⟩
  · refine List.nodup_append.mpr ⟨List.nodup_reverse.mpr hpn, hqn, ?_⟩
    rintro a ha _ hb rfl
    exact h.disjoint hn hf hp hq (List.mem_reverse.mp ha) hb
  · rw [List.head?_append, List.head?_reverse, hpl]
    rfl
  · rw [List.getLast?_append, hql]
    rfl
  · refine List.isChain_append.mpr ⟨?_, hqc, ?_⟩
    · exact List.isChain_reverse.mpr (hpc.imp fun _ _ => Adjacent.symm)
    · rw [List.getLast?_reverse]
      exact hs

theorem meet_eq_some {near far : Trails V} {p q : List V} (h : near.meet next far = some (p, q)) :
    p ∈ near.steps next ∧ q ∈ far.all ∧ q.head? = p.head? := by
  obtain ⟨p', hp', hm⟩ := List.exists_of_findSome?_eq_some h
  obtain ⟨q', hq', heq⟩ := Option.map_eq_some_iff.mp hm
  obtain ⟨rfl, rfl⟩ := Prod.mk.inj heq
  exact ⟨hp', List.mem_of_find?_eq_some hq', by simpa using List.find?_some hq'⟩

end Trails

section Search

variable [DecidableEq V] {next : V → List V}

theorem isPath_of_searchPath (hn : ∀ a, ∀ b ∈ next a, Adjacent pairs a b) {layers : Nat}
    {near far : Trails V} (hnear : near.Valid pairs u) (hfar : far.Valid pairs v)
    (ha : Trails.Apart near far) {path : List V}
    (h : searchPath next layers near far = some path) : IsPath pairs u v path := by
  induction layers generalizing near far with
  | zero => cases h
  | succ layers ih =>
    rw [searchPath] at h
    split at h
    · cases h
    split at h
    · split at h
      · next p q hm =>
        obtain ⟨hp, hq, hhead⟩ := Trails.meet_eq_some hm
        obtain ⟨p, hpf, a, hpa, b, hb, rfl⟩ := Trails.mem_steps.mp hp
        obtain ⟨rest, rfl⟩ : ∃ rest, q = b :: rest := by
          cases q with
          | nil => cases hhead
          | cons c rest => exact ⟨rest, by rw [Option.some.inj hhead]⟩
        obtain rfl : p.reverse ++ b :: rest = path := by simpa using h
        refine hnear.isPath hfar ha (hnear.fringe hpf) hq ?_
        intro c hc d hd
        obtain rfl := Option.some.inj (hpa.symm.trans hc)
        obtain rfl := Option.some.inj hd
        exact hn _ _ hb
      · next hm => exact ih (hnear.grow hn) hfar (ha.grow hm) h
    · split at h
      · next p q hm =>
        obtain ⟨hp, hq, hhead⟩ := Trails.meet_eq_some hm
        obtain ⟨p, hpf, a, hpa, b, hb, rfl⟩ := Trails.mem_steps.mp hp
        obtain rfl : q.reverse ++ p = path := by simpa using h
        refine hnear.isPath hfar ha hq (hfar.fringe hpf) ?_
        intro c hc d hd
        obtain rfl := Option.some.inj (hhead.symm.trans hc)
        obtain rfl := Option.some.inj (hpa.symm.trans hd)
        exact (hn _ _ hb).symm
      · next hm => exact ih hnear (hfar.grow hn) (ha.symm.grow hm).symm h

/-- What the search finds is a path between its ends that repeats no vertex. -/
theorem isPath_of_shortestPath (hn : ∀ a, ∀ b ∈ next a, Adjacent pairs a b) {size : Nat}
    {path : List V} (h : shortestPath next size u v = some path) : IsPath pairs u v path := by
  rw [shortestPath] at h
  split at h
  · next huv =>
    obtain rfl := Option.some.inj h
    subst huv
    exact ⟨List.nodup_singleton u, rfl, rfl, List.isChain_singleton u⟩
  · next huv =>
    refine isPath_of_searchPath hn (Trails.valid_start pairs u) (Trails.valid_start pairs v) ?_ h
    intro p hp q hq heq
    obtain rfl := List.mem_singleton.mp hp
    obtain rfl := List.mem_singleton.mp hq
    exact huv (Option.some.inj heq)

end Search

theorem IsPath.of_places {vertices : List Node} {pairs : List (Node × Node)} {u v : Node}
    {path : List Nat} (hends : ∀ p ∈ pairs, p.1 ∈ vertices ∧ p.2 ∈ vertices) (hu : u ∈ vertices)
    (h : IsPath (places vertices pairs) (vertices.idxOf u) (vertices.idxOf v) path) :
    IsPath pairs u v (path.filterMap (vertices[·]?)) := by
  have hplace : ∀ i ∈ path, ∃ w ∈ vertices, vertices.idxOf w = i := by
    intro i hi
    obtain ⟨w, hw, heq, -⟩ := joined_of_places hends hu (joined_of_chain h.steps h.head hi)
    exact ⟨w, hw, heq⟩
  obtain ⟨ws, hws, rfl⟩ : ∃ ws : List Node, (∀ w ∈ ws, w ∈ vertices) ∧
      ws.map vertices.idxOf = path := by
    clear h
    induction path with
    | nil => exact ⟨[], by simp, rfl⟩
    | cons i path ih =>
      obtain ⟨w, hw, rfl⟩ := hplace i List.mem_cons_self
      obtain ⟨ws, hws, rfl⟩ := ih fun j hj => hplace j (List.mem_cons_of_mem _ hj)
      exact ⟨w :: ws, by simpa using ⟨hw, hws⟩, rfl⟩
  have hback : (ws.map vertices.idxOf).filterMap (vertices[·]?) = ws.filterMap some := by
    rw [List.filterMap_map]
    refine List.filterMap_congr fun w hw => ?_
    exact List.getElem?_idxOf (hws w hw)
  rw [hback, List.filterMap_some]
  refine ⟨.of_map _ h.nodup, ?_, ?_, ?_⟩
  · obtain ⟨w, hw, heq⟩ := Option.map_eq_some_iff.mp ((List.head?_map ..).symm.trans h.head)
    rw [hw, (List.idxOf_inj (hws w (List.mem_of_head? hw))).mp heq]
  · obtain ⟨w, hw, heq⟩ := Option.map_eq_some_iff.mp ((List.getLast?_map ..).symm.trans h.last)
    rw [hw, (List.idxOf_inj (hws w (List.mem_of_getLast? hw))).mp heq]
  · refine ((List.isChain_map _).mp h.steps).imp_of_mem_imp fun a b ha hb hab => ?_
    obtain ⟨c, hc, heq, hac⟩ := adjacent_of_places hends (hws a ha) hab
    exact (List.idxOf_inj hc).mp heq ▸ hac

end LPRounding
