import LPRounding.Proofs.Graph.Joined
import LPRounding.Proofs.Sums
import LPRounding.Graph.Basic

/-!
Graphs whose links are between their own vertices, and the edges that such a graph lists. Every
link is listed, and no name is listed twice.
-/

namespace LPRounding

theorem mem_extend {V : Type} [DecidableEq V] {seen xs : List V} {v : V} :
    v ∈ extend seen xs ↔ v ∈ seen ∨ v ∈ xs := by
  induction xs generalizing seen with
  | nil => simp [extend]
  | cons x xs ih =>
    rw [extend, ih, List.mem_cons]
    by_cases hx : x ∈ seen
    · rw [if_pos hx]
      constructor
      · rintro (h | h)
        · exact .inl h
        · exact .inr (.inr h)
      · rintro (h | rfl | h)
        · exact .inl h
        · exact .inl hx
        · exact .inr h
    · rw [if_neg hx, List.mem_append, List.mem_singleton, or_assoc]

theorem nodup_extend {V : Type} [DecidableEq V] {seen xs : List V} (h : seen.Nodup) :
    (extend seen xs).Nodup := by
  induction xs generalizing seen with
  | nil => exact h
  | cons x xs ih =>
    rw [extend]
    by_cases hx : x ∈ seen
    · rw [if_pos hx]
      exact ih h
    · rw [if_neg hx, ← List.concat_eq_append]
      exact ih (h.concat hx)

theorem degree_eq (pairs : List (Node × Node)) (v : Node) :
    degree pairs v = pairs.countP (fun e => e.1 = v || e.2 = v) +
      pairs.countP fun e => e.1 = v && e.2 = v := by
  rw [← countP_add_countP, degree, List.countP_eq_length_filter, List.countP_eq_length_filter]

variable {K : Type}

theorem Link.joins_iff {l : Link K} {u v : Node} :
    l.joins u v = true ↔ (l.tail = u ∧ l.head = v) ∨ (l.tail = v ∧ l.head = u) := by
  simp [Link.joins]

theorem Link.joins_comm {l : Link K} {u v : Node} : l.joins u v = l.joins v u := by
  rw [Bool.eq_iff_iff, Link.joins_iff, Link.joins_iff, or_comm]

namespace Graph

/-- Vertices are listed once, links end in them, and links between the same vertices differ by
their keys, where there may be several. -/
structure Valid (g : Graph K) : Prop where
  nodup : g.vertices.Nodup
  ends : ∀ l ∈ g.links, l.tail ∈ g.vertices ∧ l.head ∈ g.vertices
  distinct : g.links.Pairwise fun l l' =>
    l'.joins l.tail l.head = true → g.kind = .multi ∧ l.key ≠ l'.key

variable {g : Graph K} {u v : Node} {l : Link K} {e e' : Edge K}

theorem Valid.eq_of_joins (h : g.Valid) (hk : g.kind ≠ .multi) {l' : Link K} (hl : l ∈ g.links)
    (hl' : l' ∈ g.links) (hj : l.joins u v = true) (hj' : l'.joins u v = true) : l = l' := by
  have hjoins {a b : Link K} (ha : a.joins u v = true) (hb : b.joins u v = true) :
      b.joins a.tail a.head = true := by
    rw [Link.joins_iff] at ha hb ⊢
    rcases ha with ⟨rfl, rfl⟩ | ⟨rfl, rfl⟩
    · exact hb
    · exact hb.symm
  obtain ⟨i, hi, rfl⟩ := List.getElem_of_mem hl
  obtain ⟨k, hk', rfl⟩ := List.getElem_of_mem hl'
  have hd := List.pairwise_iff_getElem.mp h.distinct
  rcases Nat.lt_trichotomy i k with hik | rfl | hki
  · exact absurd (hd i k hi hk' hik (hjoins hj hj')).1 hk
  · rfl
  · exact absurd (hd k i hk' hi hki (hjoins hj' hj)).1 hk

theorem valid_empty (kind : GraphKind) : ({ kind } : Graph K).Valid :=
  ⟨List.nodup_nil, by simp, List.Pairwise.nil⟩

@[simp] theorem links_addVertex (attrs : Attributes K) : (g.addVertex v attrs).links = g.links := by
  simp only [addVertex]
  split <;> split <;> rfl

@[simp] theorem kind_addVertex (attrs : Attributes K) : (g.addVertex v attrs).kind = g.kind := by
  simp only [addVertex]
  split <;> split <;> rfl

theorem mem_addVertex (attrs : Attributes K) :
    u ∈ (g.addVertex v attrs).vertices ↔ u ∈ g.vertices ∨ u = v := by
  unfold addVertex
  by_cases hv : v ∈ g.vertices
  · by_cases ha : attrs.isEmpty <;> simp [hv, ha] <;> exact fun h => h ▸ hv
  · by_cases ha : attrs.isEmpty <;> simp [hv, ha]

theorem Valid.addVertex (h : g.Valid) (v : Node) (attrs : Attributes K) :
    (g.addVertex v attrs).Valid := by
  refine ⟨?_, ?_, ?_⟩
  · unfold Graph.addVertex
    by_cases hv : v ∈ g.vertices
    · by_cases ha : attrs.isEmpty <;> simpa [hv, ha] using h.nodup
    · by_cases ha : attrs.isEmpty <;>
        simpa [hv, ha, List.nodup_append, h.nodup] using fun a ha => by rintro rfl; exact hv ha
  · intro l hl
    rw [links_addVertex] at hl
    simp only [mem_addVertex]
    exact ⟨.inl (h.ends l hl).1, .inl (h.ends l hl).2⟩
  · rw [links_addVertex, kind_addVertex]
    exact h.distinct

theorem mem_between : l ∈ g.between u v ↔ l ∈ g.links ∧ l.joins u v = true := by
  simp [between]

@[simp] theorem kind_addLink (attrs : Attributes K) : (g.addLink u v attrs).kind = g.kind := by
  unfold addLink
  simp only
  split <;> simp

theorem vertices_addLink (attrs : Attributes K) :
    (g.addLink u v attrs).vertices = ((g.addVertex u).addVertex v).vertices := by
  unfold addLink
  simp only
  split <;> rfl

theorem links_addLink (attrs : Attributes K) (hk : g.kind = .simple) :
    (g.addLink u v attrs).links = if g.between u v = [] then
      g.links ++ [{ tail := u, head := v, key := 0, attrs }]
    else g.links.map fun l => if l.joins u v then { l with attrs := l.attrs.merge attrs } else l := by
  have hb : ((g.addVertex u).addVertex v).between u v = g.between u v := by simp [between]
  unfold addLink
  simp only [hb, kind_addVertex, hk, reduceCtorEq, false_or, List.length_eq_zero_iff]
  split
  · next h => simp [h]
  · simp

theorem Valid.addLink (h : g.Valid) (attrs : Attributes K)
    (hk : g.kind = .multi → ∀ l ∈ g.between u v, l.key ≠ (g.between u v).length) :
    (g.addLink u v attrs).Valid := by
  have h' := (h.addVertex u []).addVertex v []
  have hb : ((g.addVertex u).addVertex v).between u v = g.between u v := by simp [between]
  have hu : u ∈ ((g.addVertex u).addVertex v).vertices := by simp [mem_addVertex]
  have hv : v ∈ ((g.addVertex u).addVertex v).vertices := by simp [mem_addVertex]
  refine ⟨vertices_addLink attrs ▸ h'.nodup, ?_, ?_⟩
  · intro l hl
    rw [vertices_addLink]
    unfold Graph.addLink at hl
    simp only at hl
    split at hl
    · rcases List.mem_append.mp hl with hl | hl
      · exact h'.ends l hl
      · obtain rfl := List.mem_singleton.mp hl
        exact ⟨hu, hv⟩
    · obtain ⟨l', hl', rfl⟩ := List.mem_map.mp hl
      split <;> exact h'.ends l' hl'
  · rw [kind_addLink]
    unfold Graph.addLink
    simp only [hb, kind_addVertex, links_addVertex]
    split
    · next hnew =>
      refine List.pairwise_append.mpr ⟨h.distinct, List.pairwise_singleton _ _, ?_⟩
      intro l hl l' hl' hj
      obtain rfl := List.mem_singleton.mp hl'
      have hmem : l ∈ g.between u v := by
        refine mem_between.mpr ⟨hl, ?_⟩
        rw [Link.joins_iff] at hj ⊢
        rcases hj with ⟨h₁, h₂⟩ | ⟨h₁, h₂⟩
        · exact .inl ⟨h₁.symm, h₂.symm⟩
        · exact .inr ⟨h₂.symm, h₁.symm⟩
      rcases hnew with hm | h0
      · exact ⟨hm, hk hm l hmem⟩
      · rw [List.length_eq_zero_iff.mp h0] at hmem
        cases hmem
    · refine List.pairwise_map.mpr (h.distinct.imp fun {l l'} hd => ?_)
      split <;> split <;> exact hd

theorem mem_neighbours : v ∈ g.neighbours u ↔ ∃ l ∈ g.links, l.joins u v = true := by
  simp only [neighbours, mem_extend, List.not_mem_nil, false_or, List.mem_map, List.mem_filter]
  constructor
  · rintro ⟨l, ⟨hl, ht⟩, rfl⟩
    refine ⟨l, hl, ?_⟩
    rw [Link.joins_iff, Link.other]
    by_cases htail : l.tail = u
    · exact .inl ⟨htail, by rw [if_pos htail]⟩
    · have hhead : l.head = u := by simpa [Link.touches, htail] using ht
      exact .inr ⟨by rw [if_neg htail], hhead⟩
  · rintro ⟨l, hl, hj⟩
    refine ⟨l, ⟨hl, ?_⟩, ?_⟩
    · rcases Link.joins_iff.mp hj with ⟨h, -⟩ | ⟨-, h⟩ <;> simp [Link.touches, h]
    · rcases Link.joins_iff.mp hj with ⟨h, h'⟩ | ⟨h, h'⟩
      · simp [Link.other, h, h']
      · by_cases hu : l.tail = u
        · rw [Link.other, if_pos hu, h', ← hu, h]
        · rw [Link.other, if_neg hu, h]

theorem mem_edgesFrom {seen : List Node} :
    e ∈ g.edgesFrom seen u ↔ ∃ v, v ∉ seen ∧ ∃ l ∈ g.links, l.joins u v = true ∧
      { name := g.edgeName u v l, attrs := l.attrs } = e := by
  simp only [edgesFrom, List.mem_flatMap, List.mem_filter, List.mem_map, mem_between,
    mem_neighbours, decide_eq_true_eq]
  constructor
  · rintro ⟨v, ⟨-, hv⟩, l, ⟨hl, hj⟩, rfl⟩
    exact ⟨v, hv, l, hl, hj, rfl⟩
  · rintro ⟨v, hv, l, hl, hj, rfl⟩
    exact ⟨v, ⟨⟨l, hl, hj⟩, hv⟩, l, ⟨hl, hj⟩, rfl⟩

theorem mem_edgesAfter {seen vs : List Node} : e ∈ g.edgesAfter seen vs ↔
    ∃ pre u post, vs = pre ++ u :: post ∧ e ∈ g.edgesFrom (pre.reverse ++ seen) u := by
  induction vs generalizing seen with
  | nil => simp [edgesAfter]
  | cons w vs ih =>
    rw [edgesAfter, List.mem_append, ih]
    constructor
    · rintro (h | ⟨pre, u, post, rfl, h⟩)
      · exact ⟨[], w, vs, rfl, h⟩
      · exact ⟨w :: pre, u, post, rfl, by simpa using h⟩
    · rintro ⟨pre, u, post, heq, h⟩
      cases pre with
      | nil =>
        obtain ⟨rfl, rfl⟩ := List.cons.inj heq
        exact .inl h
      | cons a pre =>
        obtain ⟨rfl, rfl⟩ := List.cons.inj heq
        exact .inr ⟨pre, u, post, rfl, by simpa using h⟩

theorem exists_link (he : e ∈ g.edges) :
    ∃ l ∈ g.links, l.joins e.name.u e.name.v = true ∧ e.attrs = l.attrs := by
  obtain ⟨pre, u, post, -, h⟩ := mem_edgesAfter.mp he
  obtain ⟨v, -, l, hl, hj, rfl⟩ := mem_edgesFrom.mp h
  exact ⟨l, hl, hj, rfl⟩

theorem Valid.edge_ends (h : g.Valid) (he : e ∈ g.edges) :
    e.name.u ∈ g.vertices ∧ e.name.v ∈ g.vertices := by
  obtain ⟨l, hl, hj, -⟩ := exists_link he
  obtain ⟨ht, hh⟩ := h.ends l hl
  rcases Link.joins_iff.mp hj with ⟨h₁, h₂⟩ | ⟨h₁, h₂⟩
  · exact ⟨h₁ ▸ ht, h₂ ▸ hh⟩
  · exact ⟨h₂ ▸ hh, h₁ ▸ ht⟩

theorem exists_edge (hl : l ∈ g.links) (ht : l.tail ∈ g.vertices) :
    ∃ e ∈ g.edges, l.joins e.name.u e.name.v = true ∧ e.attrs = l.attrs := by
  have hfind : (g.vertices.find? fun v => l.touches v).isSome := by
    rw [List.find?_isSome]
    exact ⟨l.tail, ht, by simp [Link.touches]⟩
  obtain ⟨u, hu⟩ := Option.isSome_iff_exists.mp hfind
  obtain ⟨htouch, pre, post, hv, hpre⟩ := List.find?_eq_some_iff_append.mp hu
  have hj : l.joins u (l.other u) = true := by
    rw [Link.joins_iff, Link.other]
    by_cases htail : l.tail = u
    · exact .inl ⟨htail, by rw [if_pos htail]⟩
    · have hhead : l.head = u := by simpa [Link.touches, htail] using htouch
      exact .inr ⟨by rw [if_neg htail], hhead⟩
  refine ⟨{ name := g.edgeName u (l.other u) l, attrs := l.attrs }, ?_, hj, rfl⟩
  refine mem_edgesAfter.mpr ⟨pre, u, post, hv, mem_edgesFrom.mpr ⟨_, ?_, l, hl, hj, rfl⟩⟩
  intro hmem
  have hmem : l.other u ∈ pre := by simpa using hmem
  have hno := hpre _ hmem
  rcases Link.joins_iff.mp hj with ⟨-, h⟩ | ⟨h, -⟩ <;> simp [Link.touches, h] at hno

theorem Valid.nodup_from (h : g.Valid) (seen : List Node) (u : Node) :
    ((g.edgesFrom seen u).map Edge.name).Nodup := by
  rw [edgesFrom, List.map_flatMap]
  refine List.nodup_flatMap.mpr ⟨?_, ?_⟩
  · intro v _
    rw [List.map_map]
    refine List.pairwise_map.mpr ?_
    refine (h.distinct.filter fun l => l.joins u v).imp_of_mem ?_
    intro l l' hl hl' hd heq
    have hj := (List.mem_filter.mp hl).2
    have hj' := (List.mem_filter.mp hl').2
    have hjj : l'.joins l.tail l.head = true := by
      rw [Link.joins_iff] at hj hj' ⊢
      rcases hj with ⟨rfl, rfl⟩ | ⟨rfl, rfl⟩
      · exact hj'
      · exact hj'.symm
    obtain ⟨hm, hkey⟩ := hd hjj
    have hk := congrArg EdgeName.key heq
    simp only [Function.comp_apply, edgeName, if_pos hm] at hk
    exact hkey (Option.some.inj hk)
  · refine ((nodup_extend List.nodup_nil).filter _).imp ?_
    intro v v' hne
    simp only [Function.onFun, List.disjoint_left, List.mem_map]
    rintro _ ⟨e, ⟨l, -, rfl⟩, rfl⟩ ⟨e', ⟨l', -, rfl⟩, heq⟩
    exact hne (congrArg EdgeName.v heq).symm

theorem Valid.nodup_names (h : g.Valid) : (g.edges.map Edge.name).Nodup := by
  have hafter (seen vs : List Node) (hn : vs.Nodup) :
      ((g.edgesAfter seen vs).map Edge.name).Nodup := by
    induction vs generalizing seen with
    | nil => simp [edgesAfter]
    | cons u vs ih =>
      obtain ⟨hu, hn⟩ := List.nodup_cons.mp hn
      rw [edgesAfter, List.map_append, List.nodup_append]
      refine ⟨h.nodup_from seen u, ih _ hn, ?_⟩
      rintro _ ha _ hb rfl
      obtain ⟨e, he, rfl⟩ := List.mem_map.mp ha
      obtain ⟨e', he', heq⟩ := List.mem_map.mp hb
      obtain ⟨v, -, l, -, -, rfl⟩ := mem_edgesFrom.mp he
      obtain ⟨pre, u', post, rfl, hfrom⟩ := mem_edgesAfter.mp he'
      obtain ⟨v', -, l', -, -, rfl⟩ := mem_edgesFrom.mp hfrom
      have hu' : u' = u := congrArg EdgeName.u heq
      exact hu (by simp [hu'])
  exact hafter [] g.vertices h.nodup

theorem Valid.idxOf_le (h : g.Valid) (he : e ∈ g.edges) :
    g.vertices.idxOf e.name.u ≤ g.vertices.idxOf e.name.v := by
  obtain ⟨pre, u, post, hv, hfrom⟩ := mem_edgesAfter.mp he
  obtain ⟨v, hnew, l, -, -, rfl⟩ := mem_edgesFrom.mp hfrom
  have hnew : v ∉ pre := by simpa using hnew
  have hu : u ∉ pre := fun hu => by
    have hnodup := hv ▸ h.nodup
    exact (List.nodup_append.mp hnodup).2.2 u hu u List.mem_cons_self rfl
  change g.vertices.idxOf u ≤ g.vertices.idxOf v
  rw [hv, List.idxOf_append_of_notMem hu, List.idxOf_append_of_notMem hnew, List.idxOf_cons_self]
  omega

theorem Valid.name_eq (h : g.Valid) (hk : g.kind ≠ .multi) (he : e ∈ g.edges) (he' : e' ∈ g.edges)
    (hends : (e'.name.u = e.name.u ∧ e'.name.v = e.name.v) ∨
      (e'.name.u = e.name.v ∧ e'.name.v = e.name.u)) : e.name = e'.name := by
  have hkey {e : Edge K} (he : e ∈ g.edges) : e.name.key = none := by
    obtain ⟨_, _, _, -, hfrom⟩ := mem_edgesAfter.mp he
    obtain ⟨_, -, _, -, -, rfl⟩ := mem_edgesFrom.mp hfrom
    exact if_neg hk
  have hsame : e'.name.u = e.name.u ∧ e'.name.v = e.name.v := by
    rcases hends with hends | ⟨hu, hv⟩
    · exact hends
    · have hle := h.idxOf_le he
      have hle' := h.idxOf_le he'
      rw [hu, hv] at hle'
      have heq := (List.idxOf_inj (h.edge_ends he).1).mp (hle.antisymm hle')
      exact ⟨hu.trans heq.symm, hv.trans heq⟩
  calc e.name = ⟨e.name.u, e.name.v, e.name.key⟩ := rfl
    _ = ⟨e'.name.u, e'.name.v, e'.name.key⟩ := by rw [hsame.1, hsame.2, hkey he, hkey he']
    _ = e'.name := rfl

def Linked (g : Graph K) (u v : Node) : Prop := ∃ l ∈ g.links, l.joins u v = true

theorem Valid.adjacent_pairs (h : g.Valid) : Adjacent g.pairs u v ↔ g.Linked u v := by
  have hpair {a b : Node} : (a, b) ∈ g.pairs ↔ ∃ e ∈ g.edges, e.name.u = a ∧ e.name.v = b := by
    simp [pairs]
  constructor
  · rintro (hp | hp)
    · obtain ⟨e, he, rfl, rfl⟩ := hpair.mp hp
      obtain ⟨l, hl, hj, -⟩ := exists_link he
      exact ⟨l, hl, hj⟩
    · obtain ⟨e, he, rfl, rfl⟩ := hpair.mp hp
      obtain ⟨l, hl, hj, -⟩ := exists_link he
      exact ⟨l, hl, Link.joins_comm ▸ hj⟩
  · rintro ⟨l, hl, hj⟩
    obtain ⟨e, he, hje, -⟩ := exists_edge hl (h.ends l hl).1
    rw [Link.joins_iff] at hj hje
    rcases hje with ⟨h₁, h₂⟩ | ⟨h₁, h₂⟩ <;> rcases hj with ⟨h₃, h₄⟩ | ⟨h₃, h₄⟩
    · exact .inl (hpair.mpr ⟨e, he, h₁.symm.trans h₃, h₂.symm.trans h₄⟩)
    · exact .inr (hpair.mpr ⟨e, he, h₁.symm.trans h₃, h₂.symm.trans h₄⟩)
    · exact .inr (hpair.mpr ⟨e, he, h₂.symm.trans h₄, h₁.symm.trans h₃⟩)
    · exact .inl (hpair.mpr ⟨e, he, h₂.symm.trans h₄, h₁.symm.trans h₃⟩)

theorem linked_addLink (attrs : Attributes K) (hk : g.kind = .simple) {x y : Node} :
    (g.addLink u v attrs).Linked x y ↔
      g.Linked x y ∨ (u = x ∧ v = y) ∨ (u = y ∧ v = x) := by
  unfold Linked
  rw [links_addLink attrs hk]
  split
  · constructor
    · rintro ⟨l, hl, hj⟩
      rcases List.mem_append.mp hl with hl | hl
      · exact .inl ⟨l, hl, hj⟩
      · obtain rfl := List.mem_singleton.mp hl
        exact .inr (Link.joins_iff.mp hj)
    · rintro (⟨l, hl, hj⟩ | h)
      · exact ⟨l, List.mem_append_left _ hl, hj⟩
      · exact ⟨_, List.mem_append_right _ (List.mem_singleton_self _), Link.joins_iff.mpr h⟩
  · next hne =>
    have hmap (l : Link K) : (if l.joins u v then { l with attrs := l.attrs.merge attrs } else
        l).joins x y = l.joins x y := by split <;> rfl
    constructor
    · rintro ⟨l, hl, hj⟩
      obtain ⟨l', hl', rfl⟩ := List.mem_map.mp hl
      exact .inl ⟨l', hl', hmap l' ▸ hj⟩
    · rintro (⟨l, hl, hj⟩ | h)
      · exact ⟨_, List.mem_map_of_mem hl, (hmap l).trans hj⟩
      · obtain ⟨l, hl⟩ := List.exists_mem_of_ne_nil _ hne
        obtain ⟨hl, hj⟩ := mem_between.mp hl
        refine ⟨_, List.mem_map_of_mem hl, (hmap l).trans ?_⟩
        rcases h with ⟨rfl, rfl⟩ | ⟨rfl, rfl⟩
        · exact hj
        · exact Link.joins_comm ▸ hj

theorem foldl_addVertex (vs : List Node) (h : g.Valid) (hk : g.kind = .simple) :
    let g' := vs.foldl (fun t v => t.addVertex v) g
    g'.Valid ∧ g'.kind = .simple ∧ (∀ v, v ∈ g'.vertices ↔ v ∈ g.vertices ∨ v ∈ vs) ∧
      ∀ x y, g'.Linked x y ↔ g.Linked x y := by
  induction vs generalizing g with
  | nil => exact ⟨h, hk, by simp, fun _ _ => Iff.rfl⟩
  | cons w vs ih =>
    obtain ⟨h₁, h₂, h₃, h₄⟩ := ih (h.addVertex w []) (by rw [kind_addVertex, hk])
    refine ⟨h₁, h₂, fun v => ?_, fun x y => ?_⟩
    · rw [List.foldl_cons, h₃, mem_addVertex, List.mem_cons, or_assoc]
    · rw [List.foldl_cons, h₄, Linked, Linked, links_addVertex]

theorem foldl_addLink {α : Type} (a b : α → Node) (es : List α) (h : g.Valid)
    (hk : g.kind = .simple) :
    let g' := es.foldl (fun t e => t.addLink (a e) (b e) []) g
    g'.Valid ∧ (∀ v, v ∈ g'.vertices ↔ v ∈ g.vertices ∨ ∃ e ∈ es, v = a e ∨ v = b e) ∧
      ∀ x y, g'.Linked x y ↔
        g.Linked x y ∨ ∃ e ∈ es, (a e = x ∧ b e = y) ∨ (a e = y ∧ b e = x) := by
  induction es generalizing g with
  | nil => exact ⟨h, by simp, by simp⟩
  | cons e es ih =>
    have hadd : (g.addLink (a e) (b e) []).Valid := h.addLink [] (by simp [hk])
    obtain ⟨h₁, h₂, h₃⟩ := ih hadd (by rw [kind_addLink, hk])
    refine ⟨h₁, fun v => ?_, fun x y => ?_⟩
    · rw [List.foldl_cons, h₂, vertices_addLink, mem_addVertex, mem_addVertex]
      simp only [List.mem_cons, exists_eq_or_imp, or_assoc]
    · rw [List.foldl_cons, h₃, linked_addLink [] hk]
      simp only [List.mem_cons, exists_eq_or_imp, or_assoc]

end Graph

end LPRounding
