import LPRounding.Proofs.Returns
import LPRounding.Proofs.Graph.Forest
import LPRounding.Proofs.Graph.Contraction
import LPRounding.Problem.Component

/-!
What components cost. The cost of a component pays, at the distances of its metric, for pairs that
connect its vertices: those of a spanning tree, or the rays of a star.
-/

namespace LPRounding

set_option linter.unusedSectionVars false

theorem mem_choose {α : Type} {n : Nat} {xs l : List α} :
    l ∈ choose n xs ↔ l.Sublist xs ∧ l.length = n := by
  induction xs generalizing n l with
  | nil =>
    cases n with
    | zero => simp [choose]
    | succ n =>
      simp only [choose, List.not_mem_nil, List.sublist_nil, false_iff, not_and]
      rintro rfl
      simp
  | cons x xs ih =>
    cases n with
    | zero =>
      simp only [choose, List.mem_singleton, List.length_eq_zero_iff, iff_and_self]
      rintro rfl
      exact List.nil_sublist _
    | succ n =>
      simp only [choose, List.mem_append, List.mem_map, ih]
      constructor
      · rintro (⟨l, ⟨hs, hl⟩, rfl⟩ | ⟨hs, hl⟩)
        · exact ⟨hs.cons_cons x, by simp [hl]⟩
        · exact ⟨hs.cons x, hl⟩
      · rintro ⟨hs, hl⟩
        rcases List.sublist_cons_iff.mp hs with h | ⟨r, rfl, hr⟩
        · exact .inr ⟨h, hl⟩
        · exact .inl ⟨r, ⟨hr, by simpa using hl⟩, rfl⟩

theorem nodup_choose {α : Type} {n : Nat} {xs : List α} (hn : xs.Nodup) : (choose n xs).Nodup := by
  induction xs generalizing n with
  | nil => cases n <;> simp [choose]
  | cons x xs ih =>
    obtain ⟨hx, hn⟩ := List.nodup_cons.mp hn
    cases n with
    | zero => simp [choose]
    | succ n =>
      refine List.nodup_append.mpr ⟨(ih hn).map (List.cons_injective), ih hn, ?_⟩
      rintro _ hl l hl' rfl
      obtain ⟨r, -, rfl⟩ := List.mem_map.mp hl
      exact hx ((mem_choose.mp hl').1.subset List.mem_cons_self)

variable {K : Type} [Field K] [LinearOrder K] [IsStrictOrderedRing K] [FloorRing K]

theorem coe_sum (xs : List K) : ((xs.sum : K) : WithTop K) = (xs.map (↑·)).sum :=
  map_list_sum WithTop.addHom xs

namespace Distance

theorem far_sum (ds : List (Distance K)) : (Distance.sum ds).far = (ds.map far).sum := by
  have hfold (d : Distance K) : (ds.foldl add d).far = d.far + (ds.map far).sum := by
    induction ds generalizing d with
    | nil => simp
    | cons e ds ih => rw [List.foldl_cons, ih, far_add, List.map_cons, List.sum_cons, add_assoc]
  exact (hfold (some 0)).trans (zero_add _)

theorem eq_map_some {ds : List (Distance K)} {xs : List K} (h : ds.mapM id = some xs) :
    ds = xs.map some := by
  induction ds generalizing xs with
  | nil => simpa using h
  | cons d ds ih =>
    simp only [List.mapM_cons, id, Option.bind_eq_bind, Option.bind_eq_some_iff, Option.pure_def,
      Option.some.injEq] at h
    obtain ⟨x, rfl, ys, hys, rfl⟩ := h
    rw [ih hys, List.map_cons]

theorem far_balancedSum (ds : List (Distance K)) :
    (balancedSum ds).far = (ds.map far).sum := by
  unfold balancedSum
  split
  · next xs h =>
    rw [eq_map_some h, Scalar.balancedSum_eq, far_some, List.map_map, coe_sum]
    rfl
  · exact far_sum ds

end Distance

namespace Weighted

theorem total_eq {V : Type} [DecidableEq V] {vs : List V} (hn : vs.Nodup)
    {es : List (Weighted V K)} (h : ∀ e ∈ es, e.u ∈ vs ∧ e.v ∈ vs ∧ e.u ≠ e.v) :
    total vs es = (es.map weight).sum := by
  have hone {u : V} (hu : u ∈ vs) (w : K) : (vs.map fun v => if v = u then w else 0).sum = w := by
    simp [List.sum_map_ite_eq, List.count_eq_one_of_mem hn hu]
  have htwice : (vs.map fun v => (weightsAt es v).sum).sum = (es.map weight).sum * 2 := by
    induction es with
    | nil => simp [weightsAt]
    | cons e es ih =>
      obtain ⟨⟨hu, hv, hne⟩, h⟩ := List.forall_mem_cons.mp h
      have hsplit (v : V) : (weightsAt (e :: es) v).sum =
          (if v = e.u then e.weight else 0) + (if v = e.v then e.weight else 0) +
            (weightsAt es v).sum := by
        by_cases hvu : v = e.u
        · subst hvu
          simp [weightsAt, hne]
        · by_cases hvv : v = e.v
          · subst hvv
            simp [weightsAt, hvu]
          · simp [weightsAt, hvu, hvv, Ne.symm hvu, Ne.symm hvv]
      simp only [hsplit, List.sum_map_add, hone hu, hone hv, ih h, List.map_cons, List.sum_cons]
      ring
  simp [total, htwice]

end Weighted

namespace Component

section Trees

variable {m : Metric K} {places : List Nat} {e : Weighted Nat K} {i j : Nat}

theorem mem_complete (h : e ∈ complete m places) : e.u ≠ e.v ∧ ∃ a b, places[e.u]? = some a ∧
    places[e.v]? = some b ∧ e.weight = price (m.dist a b) := by
  obtain ⟨l, hl, he⟩ := List.mem_filterMap.mp h
  obtain ⟨hsub, -⟩ := mem_choose.mp hl
  split at he
  · next a i b j =>
    obtain rfl := Option.some.inj he
    have hlt : (places.zipIdx.map Prod.snd).Pairwise (· < ·) := by
      rw [List.zipIdx_map_snd]
      exact List.pairwise_lt_range'
    have hij : i < j := List.pairwise_iff_forall_sublist.mp (List.pairwise_map.mp hlt) hsub
    have ha : (a, i) ∈ places.zipIdx := hsub.subset (by simp)
    have hb : (b, j) ∈ places.zipIdx := hsub.subset (by simp)
    exact ⟨hij.ne, a, b, List.mem_zipIdx_iff_getElem?.mp ha, List.mem_zipIdx_iff_getElem?.mp hb,
      rfl⟩
  · cases he

theorem mem_complete_of_lt (hj : j < places.length) (hij : i < j) :
    { u := i, v := j, weight := price (m.dist (places.getD i 0) (places.getD j 0)) } ∈
      complete m places := by
  have hpairs : places.zipIdx.Pairwise fun x y => [x, y].Sublist places.zipIdx :=
    List.pairwise_iff_forall_sublist.mpr id
  have hsub := List.pairwise_iff_getElem.mp hpairs i j (by simpa using hij.trans hj)
    (by simpa using hj) hij
  rw [List.getElem_zipIdx, List.getElem_zipIdx] at hsub
  refine List.mem_filterMap.mpr ⟨_, mem_choose.mpr ⟨hsub, rfl⟩, ?_⟩
  simp [List.getElem?_eq_getElem hj, List.getElem?_eq_getElem (hij.trans hj)]

theorem adjacent_complete (hi : i < places.length) (hj : j < places.length) (hne : i ≠ j) :
    Adjacent ((complete m places).map Weighted.ends) i j := by
  rcases Nat.lt_or_gt_of_ne hne with h | h
  · exact .inl (List.mem_map.mpr ⟨_, mem_complete_of_lt hj h, rfl⟩)
  · exact .inr (List.mem_map.mpr ⟨_, mem_complete_of_lt hi h, rfl⟩)

theorem coe_price {d : Distance K} (h : d.far ≠ ⊤) : ((price d : K) : WithTop K) = d.far := by
  cases d with
  | none => exact absurd rfl h
  | some a => rfl

theorem weigh_of_treeCost {c : K} (h : treeCost m places = .ok c) :
    Weighted.weigh (Weighted.minimumForest (complete m places)) = c := by
  unfold treeCost at h
  split at h
  · next e he =>
    obtain rfl := Except.ok.inj h
    have hne : e.v ≠ e.u := (mem_complete (he ▸ List.mem_singleton_self e)).1.symm
    simp [he, Weighted.minimumForest, Weighted.pick, Weighted.partOf, Weighted.weigh, hne]
  · split at h
    · cases h
    · obtain rfl := Except.ok.inj h
      refine (Weighted.total_eq List.nodup_range fun e he => ?_).symm
      obtain ⟨hne, a, b, ha, hb, -⟩ := mem_complete (Weighted.mem_of_mem_minimumForest he)
      exact ⟨List.mem_range.mpr (List.getElem?_eq_some_iff.mp ha).1,
        List.mem_range.mpr (List.getElem?_eq_some_iff.mp hb).1, hne⟩

theorem connected_minimumForest (m : Metric K) (places : List Nat) :
    Connected (List.range places.length)
      ((Weighted.minimumForest (complete m places)).map Weighted.ends) := by
  have hspans := (Weighted.forest_minimumForest (complete m places)).1.spans
  rw [List.append_nil] at hspans
  intro i hi j hj
  by_cases hij : i = j
  · exact hij ▸ .refl
  refine (adjacent_complete (m := m) (List.mem_range.mp hi) (List.mem_range.mp hj)
    hij).joined.of_adjacent fun a b hab => ?_
  rcases hab with hm | hm <;> obtain ⟨e, he, heq⟩ := List.mem_map.mp hm <;>
    obtain ⟨rfl, rfl⟩ := Prod.mk.inj heq
  · exact hspans e he
  · exact (hspans e he).symm

theorem length_minimumForest (m : Metric K) (hne : places ≠ []) :
    (Weighted.minimumForest (complete m places)).length + 1 = places.length := by
  have hacyclic := (Weighted.forest_minimumForest (complete m places)).1.acyclic
  rw [List.append_nil] at hacyclic
  have hlength := (connected_minimumForest m places).length_of_acyclic hacyclic List.nodup_range
    (by simpa using hne) fun pair hpair => by
      obtain ⟨e, he, rfl⟩ := List.mem_map.mp hpair
      obtain ⟨-, a, b, ha, hb, -⟩ := mem_complete (Weighted.mem_of_mem_minimumForest he)
      exact ⟨List.mem_range.mpr (List.getElem?_eq_some_iff.mp ha).1,
        List.mem_range.mpr (List.getElem?_eq_some_iff.mp hb).1⟩
  simpa using hlength

end Trees

section Stars

variable {m : Metric K} {places : List Nat} {centers : List (Node × Nat)} {v : Node} {c : K}

theorem far_starCost (m : Metric K) (places : List Nat) (alone : Bool) (center : Nat) :
    (starCost m places alone center).far = (places.map fun i => m.far i center).sum := by
  unfold starCost
  split
  · rw [Distance.far_balancedSum, List.map_map]
    rfl
  · rw [Distance.far_sum, List.map_map]
    rfl

theorem of_bestStar {d : Distance K} (h : bestStar m places centers = some (v, d)) :
    ∃ i, (v, i) ∈ centers ∧ d.far = (places.map fun j => m.far j i).sum := by
  have hmem : (v, d) ∈ centers.map fun c =>
      (c.1, starCost m places (centers.length == 1) c.2) := by
    refine List.foldlRecOn (motive := fun best => ∀ star, best = some star → star ∈ _) _ _
      (by simp) (fun best ih star hstar s hs => ?_) _ h
    cases best with
    | none => exact Option.some.inj hs ▸ hstar
    | some b =>
      simp only at hs
      split at hs
      · exact Option.some.inj hs ▸ hstar
      · exact ih s hs
  obtain ⟨⟨w, i⟩, hw, heq⟩ := List.mem_map.mp hmem
  obtain ⟨rfl, rfl⟩ := Prod.mk.inj heq
  exact ⟨i, hw, far_starCost _ _ _ _⟩

end Stars

/-- The vertices that a component connects. -/
def vertices (c : Component K) : List Node := c.sink :: c.sources ++ c.steiner

/-- A component of terminals whose cost pays for pairs that connect its vertices. -/
structure Offered (m : Metric K) (place : Node → Nat) (terminals steiner : List Node)
    (c : Component K) : Prop where
  terminals : ∀ v ∈ c.sink :: c.sources, v ∈ terminals
  sink : c.sink ∉ c.sources
  steiner : c.steiner ⊆ steiner
  tree : m.Spans place c.vertices c.cost

section Pricing

variable {t : Tolerance K} {m : Metric K} {place : Node → Nat} {terminals steiner set : List Node}

theorem frames_of_treeCost (hfin : ∀ u ∈ set, ∀ v ∈ set, m.between place u v ≠ ⊤) (hne : set ≠ [])
    {c : K} (h : treeCost m (set.map place) = .ok c) : m.Frames place set c := by
  let es := Weighted.minimumForest (complete m (set.map place))
  have hes {e : Weighted Nat K} (he : e ∈ es) : e ∈ complete m (set.map place) :=
    Weighted.mem_of_mem_minimumForest he
  let node (i : Nat) : Node := set.getD i (.number 0)
  have hnode {u : Node} (hu : u ∈ set) : ∃ i < set.length, node i = u := by
    obtain ⟨i, hi, rfl⟩ := List.getElem_of_mem hu
    exact ⟨i, hi, List.getD_eq_getElem _ _ hi⟩
  have hplace {i a : Nat} (h : (set.map place)[i]? = some a) :
      node i ∈ set ∧ place (node i) = a := by
    rw [List.getElem?_map, Option.map_eq_some_iff] at h
    obtain ⟨u, hu, rfl⟩ := h
    obtain rfl : set.getD i (.number 0) = u := by
      rw [List.getD_eq_getElem?_getD, hu, Option.getD_some]
    exact ⟨List.mem_of_getElem? hu, rfl⟩
  refine ⟨es.map fun e => (node e.u, node e.v), ?_, ?_, ?_, ?_⟩
  · intro u hu v hv
    obtain ⟨i, hi, rfl⟩ := hnode hu
    obtain ⟨j, hj, rfl⟩ := hnode hv
    have := (connected_minimumForest m (set.map place) i (by simpa using hi) j
      (by simpa using hj)).map node
    rwa [List.map_map] at this
  · intro p hp
    obtain ⟨e, he, rfl⟩ := List.mem_map.mp hp
    obtain ⟨-, a, b, ha, hb, -⟩ := mem_complete (hes he)
    exact ⟨(hplace ha).1, (hplace hb).1⟩
  · rw [outlay, List.map_map, ← weigh_of_treeCost h, Weighted.weigh, coe_sum, List.map_map]
    refine congrArg _ (List.map_congr_left fun e he => ?_)
    obtain ⟨-, a, b, ha, hb, hw⟩ := mem_complete (hes he)
    obtain ⟨hu, rfl⟩ := hplace ha
    obtain ⟨hv, rfl⟩ := hplace hb
    rw [Function.comp_apply, Function.comp_apply, hw]
    exact (coe_price (hfin _ hu _ hv)).symm
  · have hplaces : set.map place ≠ [] := by simpa using hne
    simpa [es] using length_minimumForest m hplaces

theorem frames_of_bestStar {centers : List (Node × Nat)} {v : Node} {d : Distance K}
    (hcenters : ∀ e ∈ centers, e.2 = place e.1)
    (h : bestStar m (set.map place) centers = some (v, d)) :
    v ∈ centers.map Prod.fst ∧ m.Frames place (set ++ [v]) d.far := by
  obtain ⟨i, hi, hd⟩ := of_bestStar h
  obtain rfl : i = place v := hcenters _ hi
  refine ⟨List.mem_map_of_mem hi, set.map fun u => (u, v), ?_, ?_, ?_, by simp⟩
  · have hv {u : Node} (hu : u ∈ set ++ [v]) : Joined (set.map fun u => (u, v)) u v := by
      rcases List.mem_append.mp hu with hu | hu
      · exact .single (.inl (List.mem_map_of_mem hu))
      · exact List.mem_singleton.mp hu ▸ .refl
    exact fun a ha b hb => (hv ha).trans (hv hb).symm
  · intro p hp
    obtain ⟨u, hu, rfl⟩ := List.mem_map.mp hp
    simp [hu]
  · rw [hd, outlay, List.map_map, List.map_map]
    rfl

/-- The price of a set is what a tree over it costs, or a star with one more vertex. -/
theorem of_priced (hfin : ∀ u ∈ set, ∀ v ∈ set, m.between place u v ≠ ⊤) (hne : set ≠ []) {c : K}
    {added : List Node}
    (h : priced t m (set.map place) (steiner.map fun v => (v, place v)) = .ok (c, added)) :
    added ⊆ steiner ∧ added.Nodup ∧ m.Frames place (set ++ added) c := by
  obtain ⟨tree, htree, h⟩ := ok_bind_iff.mp h
  have hplain (h : tree = c ∧ [] = added) :
      added ⊆ steiner ∧ added.Nodup ∧ m.Frames place (set ++ added) c := by
    obtain ⟨rfl, rfl⟩ := h
    rw [List.append_nil]
    exact ⟨List.nil_subset _, .nil, frames_of_treeCost hfin hne htree⟩
  split at h
  · next v star hbest =>
    have h := Except.ok.inj h
    split at h
    · obtain ⟨rfl, rfl⟩ := Prod.mk.inj h
      split at hbest
      · obtain ⟨hv, hes⟩ := frames_of_bestStar (by simp) hbest
        exact ⟨by simpa using hv, List.nodup_singleton v, hes⟩
      · cases hbest
    · exact hplain (Prod.mk.inj h)
  · exact hplain (Prod.mk.inj (Except.ok.inj h))

end Pricing

def sets (limit : Nat) (terminals : List Node) : List (List Node) :=
  (List.range' 2 (min limit terminals.length - 1)).flatMap fun size => choose size terminals

def directed (set : List Node) (price : K × List Node) : List (Component K) :=
  set.map fun sink =>
    { sink, sources := set.filter (· ≠ sink), steiner := price.2, cost := price.1 }

section All

variable {t : Tolerance K} {m : Metric K} {place : Node → Nat} {terminals steiner set : List Node}
  {limit : Nat} {cs : List (Component K)} {c : Component K}

theorem mem_free {v : Node} : v ∈ free terminals steiner ↔ v ∈ steiner ∧ v ∉ terminals := by
  simp [free]

theorem free_subset : free terminals steiner ⊆ steiner := List.filter_subset_self _

theorem exists_priced (places : List Nat) (centers : List (Node × Nat)) :
    ∃ r, priced t m places centers = .ok r := by
  obtain ⟨cost, hcost⟩ : ∃ cost, treeCost m places = .ok cost := by
    unfold treeCost
    split
    · exact ⟨_, rfl⟩
    · split
      · next e he =>
        have he : (complete m places).find? (fun e => Scalar.isUndefined e.weight) = some e := he
        simpa [Scalar.isUndefined] using List.find?_some he
      · exact ⟨_, rfl⟩
  simp only [priced, hcost, bind, Except.bind]
  split <;> exact ⟨_, rfl⟩

theorem exists_all (t : Tolerance K) (m : Metric K) (place : Node → Nat)
    (terminals steiner : List Node) (limit : Nat) :
    let centers := (free terminals steiner).map fun v => (v, place v)
    ∃ price : List Node → K × List Node,
      (∀ set, priced t m (set.map place) centers = .ok (price set)) ∧
      all t m place terminals steiner limit =
        .ok ((sets limit terminals).flatMap fun set => directed set (price set)) := by
  intro centers
  choose price hprice using fun set : List Node =>
    exists_priced (t := t) (m := m) (set.map place) centers
  have hset (set : List Node) : ofSet t m place centers set =
      .ok (directed set (price set)) := ok_bind_iff.mpr ⟨_, hprice set, rfl⟩
  obtain ⟨css, hcss⟩ := exists_mapM (ofSet t m place centers)
    (sets limit terminals) fun set _ => ⟨_, hset set⟩
  have hmap := eq_map_of_mapM (fun set y hy => Except.ok.inj (hy.symm.trans (hset set))) hcss
  refine ⟨price, hprice, ok_bind_iff.mpr ⟨css, hcss, ?_⟩⟩
  rw [hmap, List.flatMap]
  rfl

theorem mem_sets : set ∈ sets limit terminals ↔
    set.Sublist terminals ∧ 2 ≤ set.length ∧ set.length ≤ limit := by
  simp only [sets, List.mem_flatMap, mem_choose, List.mem_range'_1]
  constructor
  · rintro ⟨size, hsize, hsub, rfl⟩
    exact ⟨hsub, by omega⟩
  · rintro ⟨hsub, hle⟩
    have := hsub.length_le
    exact ⟨_, by omega, hsub, rfl⟩

/-- A component belongs to a set of terminals, and its cost and Steiner vertices are the price of
that set. -/
theorem mem_all (h : all t m place terminals steiner limit = .ok cs) :
    c ∈ cs ↔ ∃ set ∈ sets limit terminals, c.sink ∈ set ∧ c.sources = set.filter (· ≠ c.sink) ∧
      priced t m (set.map place) ((free terminals steiner).map fun v => (v, place v)) =
        .ok (c.cost, c.steiner) := by
  obtain ⟨price, hprice, hall⟩ := exists_all t m place terminals steiner limit
  obtain rfl := Except.ok.inj (hall.symm.trans h)
  simp only [List.mem_flatMap, directed, List.mem_map, hprice, Except.ok.injEq]
  constructor
  · rintro ⟨set, hset, sink, hsink, rfl⟩
    exact ⟨set, hset, hsink, rfl, rfl⟩
  · rintro ⟨set, hset, hsink, hsources, hpair⟩
    refine ⟨set, hset, c.sink, hsink, ?_⟩
    rw [hpair, ← hsources]

theorem exists_mem_all (h : all t m place terminals steiner limit = .ok cs)
    (hset : set ∈ sets limit terminals) {sink : Node} (hsink : sink ∈ set) :
    ∃ c ∈ cs, c.sink = sink ∧ c.sources = set.filter (· ≠ sink) := by
  obtain ⟨⟨cost, added⟩, hpriced⟩ := exists_priced (t := t) (m := m) (set.map place)
    ((free terminals steiner).map fun v => (v, place v))
  exact ⟨{ sink, sources := set.filter (· ≠ sink), steiner := added, cost },
    (mem_all h).mpr ⟨set, hset, hsink, rfl, hpriced⟩, rfl, rfl⟩

theorem mem_terminals {v : Node} (hsink : c.sink ∈ set)
    (hsources : c.sources = set.filter (· ≠ c.sink)) : v ∈ c.sink :: c.sources ↔ v ∈ set := by
  by_cases hv : v = c.sink <;> simp [hsources, hv, hsink]

theorem offered_of_all (hfin : ∀ u ∈ terminals, ∀ v ∈ terminals, m.between place u v ≠ ⊤)
    (h : all t m place terminals steiner limit = .ok cs) (hc : c ∈ cs) :
    Offered m place terminals (free terminals steiner) c := by
  obtain ⟨set, hset, hsink, hsources, hpriced⟩ := (mem_all h).mp hc
  have hsub := (mem_sets.mp hset).1.subset
  obtain ⟨hadded, -, hframes⟩ := of_priced (fun u hu v hv => hfin u (hsub hu) v (hsub hv))
    (List.ne_nil_of_mem hsink) hpriced
  refine ⟨fun v hv => hsub ((mem_terminals hsink hsources).mp hv), by simp [hsources], hadded,
    hframes.spans.congr fun v => ?_⟩
  rw [vertices, List.mem_append, List.mem_append, mem_terminals hsink hsources]

end All

end Component

end LPRounding
