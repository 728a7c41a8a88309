import LPRounding.Proofs.Graph.Edges
import LPRounding.Proofs.Graph.Forest

/-!
Requirements between pairs of vertices. The pairs of a maximum spanning forest demand, across every
cut, all that is demanded across it, and they demand nothing that no entry does.
-/

namespace LPRounding

set_option linter.unusedSectionVars false

namespace Requirements

variable {K : Type}

theorem keys_put (p : Node × Node) (r : K) (es : List ((Node × Node) × K)) :
    (put p r es).map Prod.fst =
      if p ∈ es.map Prod.fst then es.map Prod.fst else es.map Prod.fst ++ [p] := by
  induction es with
  | nil => simp [put]
  | cons e rest ih =>
    obtain ⟨q, s⟩ := e
    by_cases hq : q = p
    · simp [put, hq]
    · have hp : ¬ p = q := Ne.symm hq
      simp only [put, hq, if_false, List.map_cons, ih, List.mem_cons, hp, false_or]
      split <;> simp

theorem nodup_ofList (entries : List ((Node × Node) × K)) :
    ((ofList entries).entries.map Prod.fst).Nodup := by
  refine List.foldlRecOn (motive := fun es : List ((Node × Node) × K) => (es.map Prod.fst).Nodup)
    entries _ List.nodup_nil fun es h e _ => ?_
  show ((put e.1 e.2 es).map Prod.fst).Nodup
  rw [keys_put]
  split
  · exact h
  · next hp =>
    rw [← List.concat_eq_append]
    exact h.concat hp

theorem mem_ofList {entries : List ((Node × Node) × K)} {e : (Node × Node) × K}
    (h : e ∈ (ofList entries).entries) : e ∈ entries := by
  have hput (p : Node × Node) (r : K) (es : List ((Node × Node) × K)) {e : (Node × Node) × K}
      (h : e ∈ put p r es) : e ∈ es ∨ e = (p, r) := by
    induction es with
    | nil => exact .inr (List.mem_singleton.mp h)
    | cons d rest ih =>
      unfold put at h
      split at h
      · next hd =>
        rcases List.mem_cons.mp h with rfl | h
        · exact .inr (by rw [hd])
        · exact .inl (List.mem_cons_of_mem _ h)
      · rcases List.mem_cons.mp h with rfl | h
        · exact .inl List.mem_cons_self
        · exact (ih h).imp (List.mem_cons_of_mem _) id
  refine List.foldlRecOn (motive := fun es => ∀ e ∈ es, e ∈ entries) entries _
    (fun _ h => absurd h List.not_mem_nil) (fun es ih d hd e he => ?_) e h
  rcases hput d.1 d.2 es he with he | rfl
  · exact ih e he
  · exact hd

variable {r : Requirements K} {u v : Node} {w : K}

theorem mem_of_value? (h : r.value? u v = some w) : ((u, v), w) ∈ r.entries := by
  obtain ⟨⟨p, x⟩, hf, rfl⟩ := Option.map_eq_some_iff.mp h
  obtain rfl : p = (u, v) := by simpa using List.find?_some hf
  exact List.mem_of_find?_eq_some hf

theorem value?_of_mem (hn : (r.entries.map Prod.fst).Nodup) (h : ((u, v), w) ∈ r.entries) :
    r.value? u v = some w := by
  have hsome : (r.entries.find? fun e => e.1 = (u, v)).isSome := by
    rw [List.find?_isSome]
    exact ⟨_, h, by simp⟩
  obtain ⟨⟨p, x⟩, hf⟩ := Option.isSome_iff_exists.mp hsome
  have hp : p = (u, v) := by simpa using List.find?_some hf
  have heq : (p, x) = ((u, v), w) :=
    List.inj_on_of_nodup_map hn (List.mem_of_find?_eq_some hf) h hp
  show (r.entries.find? fun e => e.1 = (u, v)).map Prod.snd = some w
  rw [hf, heq]
  rfl

variable [Field K] [LinearOrder K] [IsStrictOrderedRing K] [FloorRing K]

theorem le_need (h : r.value? u v = some w) : w ≤ r.need u v := by
  rw [need, Scalar.larger_eq, h, Option.getD_some]
  exact le_max_left _ _

theorem whole_need {entries : List ((Node × Node) × K)} (h : ∀ e ∈ entries, ∃ k : ℤ, e.2 = k)
    (u v : Node) : ∃ k : ℤ, (ofList entries).need u v = k := by
  have hvalue (u v : Node) : ∃ k : ℤ, ((ofList entries).value? u v).getD 0 = k := by
    cases hw : (ofList entries).value? u v with
    | none => exact ⟨0, by simp⟩
    | some w => exact h _ (mem_ofList (mem_of_value? hw))
  obtain ⟨a, ha⟩ := hvalue u v
  obtain ⟨b, hb⟩ := hvalue v u
  exact ⟨max a b, by rw [need, Scalar.larger_eq, ha, hb, Int.cast_max]⟩

theorem need_comm (r : Requirements K) (u v : Node) : r.need u v = r.need v u := by
  rw [need, need, Scalar.larger_eq, Scalar.larger_eq, max_comm]

theorem value?_of_need_pos (h : 0 < r.need u v) :
    r.value? u v = some (r.need u v) ∨ r.value? v u = some (r.need u v) := by
  have hvalue {x : Option K} (hx : 0 < x.getD 0) : x = some (x.getD 0) := by
    cases x with
    | none => simp at hx
    | some x => rfl
  rw [need, Scalar.larger_eq] at h ⊢
  rcases max_choice ((r.value? u v).getD 0) ((r.value? v u).getD 0) with heq | heq <;>
    rw [heq] at h ⊢
  · exact .inl (hvalue h)
  · exact .inr (hvalue h)

theorem exists_entry (h : 0 < r.need u v) :
    ∃ e ∈ r.entries, 0 < e.2 ∧ (e.1 = (u, v) ∨ e.1 = (v, u)) := by
  rcases value?_of_need_pos h with hv | hv
  · exact ⟨_, mem_of_value? hv, h, .inl rfl⟩
  · exact ⟨_, mem_of_value? hv, h, .inr rfl⟩

theorem value?_merge (old : Attributes K) (name : String) (w : K) :
    (old.merge [(name, w)]).value? name = some w := by
  simp [Attributes.merge, Attributes.value?]

/-- The graph after the entries `done`: each link joins two vertices and has a weight above zero that
is no more than they need, and the weight of each entry is reached. -/
structure Weighs (r : Requirements K) (done : List ((Node × Node) × K)) (g : Graph K) : Prop where
  valid : g.Valid
  kind : g.kind = .simple
  bounded : ∀ l ∈ g.links, l.tail ≠ l.head ∧
    ∃ w, l.attrs.value? weightName = some w ∧ 0 < w ∧ w ≤ r.need l.tail l.head
  reached : ∀ e ∈ done, e.1.1 ≠ e.1.2 → 0 < e.2 → ∃ l ∈ g.links, l.joins e.1.1 e.1.2 = true ∧
    ∃ w, l.attrs.value? weightName = some w ∧ e.2 ≤ w

theorem need_of_joins (r : Requirements K) {l : Link K} (h : l.joins u v = true) :
    r.need l.tail l.head = r.need u v := by
  rcases Link.joins_iff.mp h with ⟨rfl, rfl⟩ | ⟨rfl, rfl⟩
  · rfl
  · exact r.need_comm _ _

theorem weighs_vertices (r : Requirements K) (vs : List Node) {g : Graph K}
    (h : r.Weighs [] g) : r.Weighs [] (vs.foldl (fun g v => g.addVertex v) g) := by
  induction vs generalizing g with
  | nil => exact h
  | cons v vs ih =>
    refine ih ⟨h.valid.addVertex v [], by rw [Graph.kind_addVertex, h.kind], ?_, by simp⟩
    rw [Graph.links_addVertex]
    exact h.bounded

theorem Weighs.skip {done : List ((Node × Node) × K)} {g : Graph K} (h : r.Weighs done g)
    (hskip : u = v ∨ w ≤ 0) : r.Weighs (done ++ [((u, v), w)]) g := by
  refine ⟨h.valid, h.kind, h.bounded, ?_⟩
  intro e he hne hpos
  rcases List.mem_append.mp he with he | he
  · exact h.reached e he hne hpos
  · obtain rfl := List.mem_singleton.mp he
    rcases hskip with huv | hw
    · exact absurd huv hne
    · exact absurd hpos (not_lt.mpr hw)

theorem Weighs.fresh {done : List ((Node × Node) × K)} {g : Graph K} (h : r.Weighs done g)
    (huv : u ≠ v) (hpos : 0 < w) (hw : w ≤ r.need u v) (hnone : g.between u v = []) :
    r.Weighs (done ++ [((u, v), w)]) (g.addLink u v [(weightName, w)]) := by
  have hlinks := Graph.links_addLink (u := u) (v := v) [(weightName, w)] h.kind
  rw [if_pos hnone] at hlinks
  have hvalue : (Attributes.value? [(weightName, w)] weightName) = some w := by
    simp [Attributes.value?]
  refine ⟨h.valid.addLink _ (by simp [h.kind]), by rw [Graph.kind_addLink, h.kind], ?_, ?_⟩
  · intro l hl
    rw [hlinks] at hl
    rcases List.mem_append.mp hl with hl | hl
    · exact h.bounded l hl
    · obtain rfl := List.mem_singleton.mp hl
      exact ⟨huv, w, hvalue, hpos, hw⟩
  · intro e he hne hpos
    rw [hlinks]
    rcases List.mem_append.mp he with he | he
    · obtain ⟨l, hl, hrest⟩ := h.reached e he hne hpos
      exact ⟨l, List.mem_append_left _ hl, hrest⟩
    · obtain rfl := List.mem_singleton.mp he
      refine ⟨_, List.mem_append_right _ (List.mem_singleton_self _), ?_, w, hvalue, le_rfl⟩
      simp [Link.joins]

theorem Weighs.again {done : List ((Node × Node) × K)} {g : Graph K} (h : r.Weighs done g)
    (hpos : 0 < w) (hw : w ≤ r.need u v) {l₀ : Link K} {rest : List (Link K)} {old : K}
    (hsome : g.between u v = l₀ :: rest) (hold : l₀.attrs.value? weightName = some old) :
    r.Weighs (done ++ [((u, v), w)]) (g.addLink u v [(weightName, max old w)]) := by
  have hlinks := Graph.links_addLink (u := u) (v := v) [(weightName, max old w)] h.kind
  rw [if_neg (by simp [hsome])] at hlinks
  obtain ⟨hl₀, hj₀⟩ := Graph.mem_between.mp (hsome ▸ List.mem_cons_self : l₀ ∈ g.between u v)
  have hnew : max old w ≤ r.need u v := by
    obtain ⟨-, x, hx, -, hle⟩ := h.bounded l₀ hl₀
    obtain rfl := Option.some.inj (hold.symm.trans hx)
    rw [r.need_of_joins hj₀] at hle
    exact max_le hle hw
  refine ⟨h.valid.addLink _ (by simp [h.kind]), by rw [Graph.kind_addLink, h.kind], ?_, ?_⟩
  · intro l hl
    rw [hlinks] at hl
    obtain ⟨l', hl', rfl⟩ := List.mem_map.mp hl
    by_cases hj : l'.joins u v = true
    · rw [if_pos hj]
      refine ⟨(h.bounded l' hl').1, max old w, value?_merge _ _ _, hpos.trans_le (le_max_right _ _),
        ?_⟩
      rw [r.need_of_joins hj]
      exact hnew
    · rw [if_neg hj]
      exact h.bounded l' hl'
  · intro e he hne hpos
    rw [hlinks]
    rcases List.mem_append.mp he with he | he
    · obtain ⟨l, hl, hj, x, hx, hle⟩ := h.reached e he hne hpos
      refine ⟨_, List.mem_map_of_mem hl, ?_⟩
      by_cases hjuv : l.joins u v = true
      · -- the only link between the two vertices is the one whose weight was read
        have heq := h.valid.eq_of_joins (by simp [h.kind]) hl hl₀ hjuv hj₀
        subst heq
        obtain rfl := Option.some.inj (hold.symm.trans hx)
        rw [if_pos hjuv]
        exact ⟨hj, max old w, value?_merge _ _ _, hle.trans (le_max_left _ _)⟩
      · rw [if_neg hjuv]
        exact ⟨hj, x, hx, hle⟩
    · obtain rfl := List.mem_singleton.mp he
      refine ⟨_, List.mem_map_of_mem hl₀, ?_⟩
      rw [if_pos hj₀]
      exact ⟨hj₀, max old w, value?_merge _ _ _, le_max_right _ _⟩

theorem weighs_graph (hn : (r.entries.map Prod.fst).Nodup) (vertices : List Node) :
    r.Weighs r.entries (r.graph vertices) := by
  have hfold {step : Graph K → (Node × Node) × K → Graph K}
      (hstep : ∀ done g, r.Weighs done g → ∀ e ∈ r.entries, r.Weighs (done ++ [e]) (step g e))
      (done : List ((Node × Node) × K)) {es : List ((Node × Node) × K)}
      (hes : ∀ e ∈ es, e ∈ r.entries) {g : Graph K} (h : r.Weighs done g) :
      r.Weighs (done ++ es) (es.foldl step g) := by
    induction es generalizing done g with
    | nil => simpa using h
    | cons e es ih =>
      obtain ⟨he, hes⟩ := List.forall_mem_cons.mp hes
      simpa using ih (done ++ [e]) hes (hstep done g h e he)
  refine hfold (fun done g h e he => ?_) [] (fun _ => id)
    (r.weighs_vertices vertices ⟨Graph.valid_empty .simple, rfl, by simp, by simp⟩)
  obtain ⟨⟨u, v⟩, w⟩ := e
  have hw : w ≤ r.need u v := le_need (value?_of_mem hn he)
  simp only
  split
  · next hskip => exact h.skip hskip
  · next hkeep =>
    obtain ⟨huv, hpos⟩ := not_or.mp hkeep
    have hpos : 0 < w := not_le.mp hpos
    cases hb : g.between u v with
    | nil => exact h.fresh huv hpos hw hb
    | cons l rest =>
      have hl := (Graph.mem_between.mp (hb ▸ List.mem_cons_self : l ∈ g.between u v)).1
      obtain ⟨-, old, hold, -⟩ := h.bounded l hl
      simp only [List.head?_cons, Option.bind_some, hold, Scalar.larger_eq]
      exact h.again hpos hw hb hold

def weighted (r : Requirements K) (vertices : List Node) : List (Weighted Node K) :=
  (r.graph vertices).edges.map fun e =>
    { u := e.name.u, v := e.name.v, weight := e.cost weightName }

/-- The pairs left over when `span` says which edges make up the forest. -/
def pruneBy (span : List (Weighted Node K) → List (Weighted Node K)) (r : Requirements K)
    (vertices : List Node) : Except (Fault K) (List (Node × Node)) :=
  match Weighted.undefined? (r.weighted vertices) with
  | some e => .error (.undefinedWeight e.u e.v)
  | none =>
    let forest : Graph K := (r.graph vertices).vertices.foldl (fun f v => f.addVertex v) {}
    .ok ((span (r.weighted vertices)).foldl (fun f e => f.addLink e.u e.v []) forest).pairs

theorem prune_eq (r : Requirements K) (vertices : List Node) :
    r.prune vertices = r.pruneBy Weighted.maximumForest vertices := rfl

theorem prune_of_sorted {vertices : List Node}
    (h : (r.weighted vertices).Pairwise fun a b => !(a.weight < b.weight)) :
    r.prune vertices = r.pruneBy (Weighted.pick []) vertices := by
  rw [prune_eq, pruneBy, pruneBy, Weighted.maximumForest, List.mergeSort_of_pairwise h]

theorem of_mem_weighted (hn : (r.entries.map Prod.fst).Nodup) {vertices : List Node}
    {a : Weighted Node K} (ha : a ∈ r.weighted vertices) :
    a.u ≠ a.v ∧ 0 < a.weight ∧ a.weight ≤ r.need a.u a.v := by
  have hg := r.weighs_graph hn vertices
  obtain ⟨e, he, rfl⟩ := List.mem_map.mp ha
  obtain ⟨l, hl, hj, hattrs⟩ := Graph.exists_link he
  obtain ⟨hne, w, hw, hpos, hle⟩ := hg.bounded l hl
  have hcost : e.cost weightName = w := by rw [Edge.cost, hattrs, hw, Option.getD_some]
  refine ⟨fun heq => hne ?_, hcost ▸ hpos, ?_⟩
  · rcases Link.joins_iff.mp hj with ⟨h₁, h₂⟩ | ⟨h₁, h₂⟩
    · exact h₁.trans (heq.trans h₂.symm)
    · exact h₁.trans (heq.symm.trans h₂.symm)
  · rw [r.need_of_joins hj] at hle
    exact hcost ▸ hle

theorem exists_weighted (hn : (r.entries.map Prod.fst).Nodup) (vertices : List Node)
    (hv : r.value? u v = some w) (huv : u ≠ v) (hw : 0 < w) :
    ∃ a ∈ r.weighted vertices, w ≤ a.weight ∧ (a.ends = (u, v) ∨ a.ends = (v, u)) := by
  have hg := r.weighs_graph hn vertices
  obtain ⟨l, hl, hj, x, hx, hle⟩ := hg.reached _ (mem_of_value? hv) huv hw
  obtain ⟨e, he, hje, hattrs⟩ := Graph.exists_edge hl (hg.valid.ends l hl).1
  refine ⟨_, List.mem_map_of_mem he, ?_, ?_⟩
  · show w ≤ e.cost weightName
    rwa [Edge.cost, hattrs, hx, Option.getD_some]
  · rw [Link.joins_iff] at hj hje
    show (e.name.u, e.name.v) = (u, v) ∨ (e.name.u, e.name.v) = (v, u)
    rcases hj with ⟨rfl, rfl⟩ | ⟨rfl, rfl⟩ <;> rcases hje with ⟨h₁, h₂⟩ | ⟨h₁, h₂⟩ <;>
      simp [h₁, h₂]

variable {span : List (Weighted Node K) → List (Weighted Node K)}

theorem exists_pruneBy (span : List (Weighted Node K) → List (Weighted Node K))
    (r : Requirements K) (vertices : List Node) :
    ∃ pairs, r.pruneBy span vertices = .ok pairs := by
  have hdefined : Weighted.undefined? (r.weighted vertices) = none := by
    simp [Weighted.undefined?, Scalar.isUndefined]
  unfold pruneBy
  rw [hdefined]
  exact ⟨_, rfl⟩

theorem adjacent_pruneBy {vertices : List Node} {pairs : List (Node × Node)}
    (hp : r.pruneBy span vertices = .ok pairs) :
    Adjacent pairs u v ↔ ∃ a ∈ span (r.weighted vertices), a.ends = (u, v) ∨ a.ends = (v, u) := by
  unfold pruneBy at hp
  split at hp
  · cases hp
  obtain rfl := Except.ok.inj hp
  obtain ⟨h₁, h₂, -, hbare⟩ := Graph.foldl_addVertex (r.graph vertices).vertices
    (Graph.valid_empty (K := K) .simple) rfl
  obtain ⟨h₃, -, hlinked⟩ := Graph.foldl_addLink Weighted.u Weighted.v
    (span (r.weighted vertices)) h₁ h₂
  rw [h₃.adjacent_pairs, hlinked, hbare]
  simp [Graph.Linked, Weighted.ends]

section Pruned

variable {vertices : List Node} {pairs : List (Node × Node)}
  (hn : (r.entries.map Prod.fst).Nodup)
  (hspan : Weighted.MaximumForest [] (r.weighted vertices) (span (r.weighted vertices)))
  (hp : r.pruneBy span vertices = .ok pairs)

include hn hspan hp

theorem of_mem_pruneBy {p : Node × Node} (hm : p ∈ pairs) : p.1 ≠ p.2 ∧ 0 < r.need p.1 p.2 := by
  obtain ⟨a, ha, hends⟩ := (adjacent_pruneBy hp).mp (.inl hm)
  obtain ⟨hne, hpos, hle⟩ := of_mem_weighted hn (hspan.among.subset ha)
  rcases hends with hends | hends <;> obtain ⟨h₁, h₂⟩ := Prod.mk.inj hends
  · exact ⟨h₁ ▸ h₂ ▸ hne, h₁ ▸ h₂ ▸ hpos.trans_le hle⟩
  · rw [r.need_comm]
    exact ⟨h₁ ▸ h₂ ▸ hne.symm, h₁ ▸ h₂ ▸ hpos.trans_le hle⟩

/-- What is demanded across a cut is demanded of a pair of the forest across it. -/
theorem exists_pair_of_need (hpos : 0 < r.need u v) {side : Node → Bool}
    (hside : side u ≠ side v) :
    ∃ p ∈ pairs, r.need u v ≤ r.need p.1 p.2 ∧ side p.1 ≠ side p.2 := by
  have huv : u ≠ v := by
    rintro rfl
    exact hside rfl
  obtain ⟨e, he, hle, hends⟩ : ∃ e ∈ r.weighted vertices, r.need u v ≤ e.weight ∧
      (e.ends = (u, v) ∨ e.ends = (v, u)) := by
    rcases value?_of_need_pos hpos with hv | hv
    · exact exists_weighted hn vertices hv huv hpos
    · obtain ⟨e, he, hle, hends⟩ := exists_weighted hn vertices hv huv.symm hpos
      exact ⟨e, he, hle, hends.symm⟩
  have hcross : side e.u ≠ side e.v := by
    rcases hends with hends | hends <;> obtain ⟨h₁, h₂⟩ := Prod.mk.inj hends <;> rw [h₁, h₂]
    · exact hside
    · exact hside.symm
  obtain ⟨a, ha, hea, hacross⟩ := hspan.exists_heavy he hcross
  obtain ⟨-, -, hneed⟩ := of_mem_weighted hn (hspan.among.subset ha)
  have hall : r.need u v ≤ r.need a.u a.v := (hle.trans hea).trans hneed
  rcases (adjacent_pruneBy hp).mpr ⟨a, ha, .inl rfl⟩ with hm | hm
  · exact ⟨_, hm, hall, hacross⟩
  · exact ⟨_, hm, hall.trans_eq (r.need_comm _ _), hacross.symm⟩

theorem exists_end (huv : u ≠ v) (hpos : 0 < r.need u v) : ∃ p ∈ pairs, p.1 = u ∨ p.2 = u := by
  let side (w : Node) : Bool := decide (w = u)
  have hside : side u ≠ side v := by simp [side, Ne.symm huv]
  obtain ⟨p, hm, -, hcross⟩ := exists_pair_of_need hn hspan hp hpos hside
  refine ⟨p, hm, ?_⟩
  by_contra hno
  obtain ⟨h₁, h₂⟩ := not_or.mp hno
  simp [side, h₁, h₂] at hcross

end Pruned

theorem exists_pair (hn : (r.entries.map Prod.fst).Nodup) {vertices : List Node}
    {pairs : List (Node × Node)} (hp : r.prune vertices = .ok pairs) (hv : r.value? u v = some w)
    (hw : 0 < w) {side : Node → Bool} (hside : side u ≠ side v) :
    ∃ p ∈ pairs, w ≤ r.need p.1 p.2 ∧ side p.1 ≠ side p.2 := by
  have hle := le_need hv
  obtain ⟨p, hm, hneed, hcross⟩ := exists_pair_of_need hn (Weighted.maximum_maximumForest _)
    (r.prune_eq vertices ▸ hp) (hw.trans_le hle) hside
  exact ⟨p, hm, hle.trans hneed, hcross⟩

end Requirements

end LPRounding
