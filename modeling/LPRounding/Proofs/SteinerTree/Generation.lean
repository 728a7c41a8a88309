import LPRounding.Proofs.Sums
import LPRounding.Proofs.SteinerTree.Price
import LPRounding.Problem.SteinerTree

/-!
All components of the current terminals: one for each set of the allowed sizes and each sink in it.
Those of one set share their tree, and up to three terminals no tree is cheaper.
-/

namespace LPRounding

set_option linter.unusedSectionVars false

variable {K S : Type} [Field K] [LinearOrder K] [IsStrictOrderedRing K] [FloorRing K]

/-- Pairs of the vertices that connect them and close no cycle. -/
structure IsTree {V : Type} (vs : List V) (es : List (V × V)) : Prop where
  connected : Connected vs es
  acyclic : Acyclic es
  ends : ∀ e ∈ es, e.1 ∈ vs ∧ e.2 ∈ vs

theorem Metric.Frames.exists_tree {V : Type} [DecidableEq V] {m : Metric K} {place : V → Nat}
    {vs : List V} {c : WithTop K} (h : m.Frames place vs c) (hn : vs.Nodup) :
    ∃ es, IsTree vs es ∧ outlay (m.between place) es = c := by
  obtain ⟨es, hconn, hends, hcost, hlength⟩ := h
  exact ⟨es, ⟨hconn, hconn.acyclic hn hlength, hends⟩, hcost⟩

namespace Component

variable {t : Tolerance K} {m : Metric K} {place : Node → Nat} {terminals steiner set : List Node}
  {limit : Nat} {cs : List (Component K)} {c c' : Component K}

def members (c : Component K) : Finset Node := insert c.sink c.sources.toFinset

theorem nodup_sets (hn : terminals.Nodup) : (sets limit terminals).Nodup := by
  refine List.nodup_flatMap.mpr ⟨fun size _ => nodup_choose hn, ?_⟩
  refine (List.nodup_range').imp fun hne l hl hl' => hne ?_
  exact (mem_choose.mp hl).2.symm.trans (mem_choose.mp hl').2

theorem eq_of_mem_sets (hn : terminals.Nodup) {set' : List Node}
    (hset : set ∈ sets limit terminals) (hset' : set' ∈ sets limit terminals)
    (h : ∀ v, v ∈ set ↔ v ∈ set') : set = set' := by
  rw [eq_filter_of_sublist (mem_sets.mp hset).1 hn, eq_filter_of_sublist (mem_sets.mp hset').1 hn]
  exact List.filter_congr fun v _ => decide_eq_decide.mpr (h v)

def key (c : Component K) : Node × Finset Node := (c.sink, c.sources.toFinset)

theorem nodup_keys (hn : terminals.Nodup) (h : all t m place terminals steiner limit = .ok cs) :
    (cs.map key).Nodup := by
  obtain ⟨price, -, hall⟩ := exists_all t m place terminals steiner limit
  obtain rfl := Except.ok.inj (hall.symm.trans h)
  rw [List.map_flatMap, List.nodup_flatMap]
  constructor
  · intro set hset
    rw [directed, List.map_map]
    exact (hn.sublist (mem_sets.mp hset).1).map fun u v huv => congrArg Prod.fst huv
  · refine (nodup_sets hn).imp_of_mem fun {set set'} hset hset' hne k hk hk' => hne ?_
    have hwhole {l : List Node} {price : K × List Node} (hk : k ∈ (directed l price).map key) :
        ∀ v, v ∈ l ↔ v = k.1 ∨ v ∈ k.2 := by
      obtain ⟨c, hc, rfl⟩ := List.mem_map.mp hk
      obtain ⟨sink, hsink, rfl⟩ := List.mem_map.mp hc
      intro v
      by_cases hv : v = sink <;> simp [key, hv, hsink]
    exact eq_of_mem_sets hn hset hset' fun v => (hwhole hk v).trans (hwhole hk' v).symm

theorem exists_list (hn : terminals.Nodup) {goal : Finset Node} (hsub : goal ⊆ terminals.toFinset) :
    ∃ set : List Node, set.Sublist terminals ∧ set.length = goal.card ∧
      ∀ v, v ∈ set ↔ v ∈ goal := by
  have hmem (v : Node) : v ∈ terminals.filter (· ∈ goal) ↔ v ∈ goal := by
    simpa using fun hv => List.mem_toFinset.mp (hsub hv)
  refine ⟨terminals.filter (· ∈ goal), List.filter_sublist, ?_, hmem⟩
  rw [← List.toFinset_card_of_nodup (hn.filter _)]
  exact congrArg Finset.card (Finset.ext fun v => List.mem_toFinset.trans (hmem v))

theorem countP_all (hn : terminals.Nodup) (h : all t m place terminals steiner limit = .ok cs)
    {goal : Finset Node} (hsub : goal ⊆ terminals.toFinset) (h2 : 2 ≤ goal.card)
    (hle : goal.card ≤ limit) {sink : Node} (hsink : sink ∈ goal) :
    (cs.countP fun c => c.sink = sink ∧ c.sources.toFinset = goal.erase sink) = 1 := by
  obtain ⟨set, hset, hcard, hmem⟩ := exists_list hn hsub
  obtain ⟨c, hc, rfl, hsources⟩ := exists_mem_all h
    (mem_sets.mpr ⟨hset, hcard ▸ h2, hcard ▸ hle⟩) ((hmem _).mpr hsink)
  have hkey : key c = (c.sink, goal.erase c.sink) := by
    refine Prod.ext rfl (Finset.ext fun v => ?_)
    simp [key, hsources, hmem, and_comm]
  have hone : (cs.map key).count (c.sink, goal.erase c.sink) = 1 :=
    List.count_eq_one_of_mem (nodup_keys hn h) (List.mem_map.mpr ⟨c, hc, hkey⟩)
  rw [List.count, List.countP_map] at hone
  rw [← hone]
  refine List.countP_congr fun d _ => ?_
  simp [key, Prod.ext_iff]

theorem members_eq (hsink : c.sink ∈ set) (hsources : c.sources = set.filter (· ≠ c.sink)) :
    c.members = set.toFinset := by
  refine Finset.ext fun v => ?_
  rw [members, ← List.toFinset_cons, List.mem_toFinset, List.mem_toFinset,
    mem_terminals hsink hsources]

/-- What a component is made of. -/
structure Proper (terminals steiner : List Node) (limit : Nat) (c : Component K) : Prop where
  sink : c.sink ∉ c.sources
  sources : c.sources.Nodup
  steiner : c.steiner ⊆ free terminals steiner
  terminals : c.members ⊆ terminals.toFinset
  two : 2 ≤ c.members.card
  limit : c.members.card ≤ limit

theorem proper_of_all (hn : terminals.Nodup)
    (hfin : ∀ u ∈ terminals, ∀ v ∈ terminals, m.between place u v ≠ ⊤)
    (h : all t m place terminals steiner limit = .ok cs) (hc : c ∈ cs) :
    c.Proper terminals steiner limit := by
  have hoffered := offered_of_all hfin h hc
  obtain ⟨set, hset, hsink, hsources, -⟩ := (mem_all h).mp hc
  obtain ⟨hsub, h2, hle⟩ := mem_sets.mp hset
  have hset : set.Nodup := hn.sublist hsub
  have hmembers := members_eq hsink hsources
  have hcard : c.members.card = set.length := by
    rw [hmembers, List.toFinset_card_of_nodup hset]
  refine ⟨hoffered.sink, hsources ▸ hset.filter _, hoffered.steiner, ?_, hcard ▸ h2, hcard ▸ hle⟩
  rw [hmembers]
  exact fun v hv => List.mem_toFinset.mpr (hsub.subset (List.mem_toFinset.mp hv))

theorem same_price (hn : terminals.Nodup) (h : all t m place terminals steiner limit = .ok cs)
    (hc : c ∈ cs) (hc' : c' ∈ cs) (hsame : c.members = c'.members) :
    c.cost = c'.cost ∧ c.steiner = c'.steiner := by
  obtain ⟨set, hset, hsink, hsources, hprice⟩ := (mem_all h).mp hc
  obtain ⟨set', hset', hsink', hsources', hprice'⟩ := (mem_all h).mp hc'
  rw [members_eq hsink hsources, members_eq hsink' hsources'] at hsame
  obtain rfl : set = set' := eq_of_mem_sets hn hset hset' fun v => by
    rw [← List.mem_toFinset, hsame, List.mem_toFinset]
  exact Prod.mk.inj (Except.ok.inj (hprice.symm.trans hprice'))

theorem exists_tree_of_all (hn : terminals.Nodup)
    (hfin : ∀ u ∈ terminals, ∀ v ∈ terminals, m.between place u v ≠ ⊤)
    (h : all t m place terminals steiner limit = .ok cs) (hc : c ∈ cs) :
    ∃ es, IsTree c.vertices es ∧ outlay (m.between place) es = c.cost := by
  obtain ⟨set, hset, hsink, hsources, hprice⟩ := (mem_all h).mp hc
  have hsub := (mem_sets.mp hset).1
  obtain ⟨hadded, hdistinct, hframes⟩ := of_priced
    (fun u hu v hv => hfin u (hsub.subset hu) v (hsub.subset hv)) (List.ne_nil_of_mem hsink) hprice
  have hlist : (c.sink :: c.sources).Nodup := by
    refine List.nodup_cons.mpr ⟨by simp [hsources], ?_⟩
    exact hsources ▸ (hn.sublist hsub).filter _
  have hperm : set.Perm (c.sink :: c.sources) :=
    (List.perm_ext_iff_of_nodup (hn.sublist hsub) hlist).mpr fun v =>
      (mem_terminals hsink hsources).symm
  refine (hframes.perm (hperm.append_right _)).exists_tree ?_
  refine List.nodup_append.mpr ⟨hlist, hdistinct, ?_⟩
  rintro v hv _ hv' rfl
  exact (mem_free.mp (hadded hv')).2 (hsub.subset (hperm.mem_iff.mpr hv))

/-- No tree over up to three terminals and some Steiner vertices is cheaper than a component of
these terminals, up to the tolerance. -/
theorem cost_le_outlay (h0 : 0 ≤ t.epsilon) (hn : terminals.Nodup)
    (hd : Metrical (m.between place) (terminals ++ steiner))
    (hfin : ∀ u ∈ terminals, ∀ v ∈ terminals, m.between place u v ≠ ⊤)
    (h : all t m place terminals steiner limit = .ok cs) (hc : c ∈ cs) (h3 : c.members.card ≤ 3)
    {extra : List Node} (hextra : extra ⊆ free terminals steiner) {es : List (Node × Node)}
    (htree : IsTree (c.sink :: c.sources ++ extra) es) :
    (c.cost : WithTop K) ≤ outlay (m.between place) es + t.epsilon := by
  obtain ⟨set, hset, hsink, hsources, hprice⟩ := (mem_all h).mp hc
  obtain ⟨hsub, h2, -⟩ := mem_sets.mp hset
  have hmem {v : Node} : v ∈ c.sink :: c.sources ++ extra ↔ v ∈ set ++ extra := by
    rw [List.mem_append, List.mem_append, mem_terminals hsink hsources]
  have hcard : set.length ≤ 3 := by
    rwa [members_eq hsink hsources, List.toFinset_card_of_nodup (hn.sublist hsub)] at h3
  refine priced_le_outlay h0 hprice h2 hcard (hd.mono ?_)
    (fun u hu v hv => hfin u (hsub.subset hu) v (hsub.subset hv)) hextra
    (fun e he => ⟨hmem.mp (htree.ends e he).1, hmem.mp (htree.ends e he).2⟩) fun u hu v hv => ?_
  · exact List.append_subset.mpr ⟨List.subset_append_of_subset_left _ hsub.subset,
      List.subset_append_of_subset_right _ (List.Subset.trans hextra free_subset)⟩
  · exact htree.connected u (hmem.mpr (List.mem_append_left _ hu)) v
      (hmem.mpr (List.mem_append_left _ hv))

end Component

namespace SteinerTree

/-- A problem with its distances `m`, those between its terminals finite. -/
structure Measured (p : SteinerTree K S) (m : Metric K) : Prop where
  nodup : p.terminals.Nodup
  terminals : p.terminals ⊆ p.vertices
  steiner : p.steiner ⊆ p.vertices
  metric : p.metric = some m
  weak : m.Weak p.vertices.length
  finite : ∀ u ∈ p.terminals, ∀ v ∈ p.terminals, m.between p.place u v ≠ ⊤

variable {p : SteinerTree K S} {m : Metric K}

theorem Measured.metrical (h : Measured p m) :
    Metrical (m.between p.place) (p.terminals ++ p.steiner) := by
  refine h.weak.metrical fun v hv => List.idxOf_lt_length_of_mem ?_
  rcases List.mem_append.mp hv with hv | hv
  · exact h.terminals hv
  · exact h.steiner hv

theorem Measured.exists_all (h : Measured p m) : ∃ cs,
    Component.all p.tolerance m p.place p.terminals p.steiner p.limit = .ok cs ∧
      p.generate = .ok { p with components := cs } := by
  obtain ⟨price, -, hcs⟩ := Component.exists_all p.tolerance m p.place p.terminals p.steiner p.limit
  refine ⟨_, hcs, ?_⟩
  unfold SteinerTree.generate
  split
  · next hlt =>
    have hnone : Component.sets p.limit p.terminals = [] := by
      have hsize : min p.limit p.terminals.length - 1 = 0 := by omega
      simp [Component.sets, hsize]
    rw [hnone, List.flatMap_nil]
  · rw [h.metric]
    refine ok_bind_iff.mpr ⟨m, rfl, ok_bind_iff.mpr ⟨_, hcs, ?_⟩⟩
    rw [← h.metric]
    rfl

/-- Over a weak metric, generating changes nothing but the components. Each of these has some of
the terminals, two of them and no more than the limit; every such set has exactly one component for
each of its members as the sink, with the others as sources. The components of one set have the
same cost and Steiner vertices, and the cost is that of a tree over both. With up to three
terminals, no tree over them and any of the free Steiner vertices is cheaper by more than the
tolerance. -/
theorem generate_exact (h : Measured p m) (h0 : 0 ≤ p.tolerance.epsilon) :
    ∃ cs, p.generate = .ok { p with components := cs } ∧
      (∀ c ∈ cs, c.Proper p.terminals p.steiner p.limit) ∧
      (∀ set ⊆ p.terminals.toFinset, 2 ≤ set.card → set.card ≤ p.limit → ∀ sink ∈ set,
        (cs.countP fun c => c.sink = sink ∧ c.sources.toFinset = set.erase sink) = 1) ∧
      (∀ c ∈ cs, ∀ c' ∈ cs, c.members = c'.members →
        c.cost = c'.cost ∧ c.steiner = c'.steiner) ∧
      (∀ c ∈ cs, ∃ es, IsTree c.vertices es ∧ outlay (m.between p.place) es = c.cost) ∧
      ∀ c ∈ cs, c.members.card ≤ 3 → ∀ extra ⊆ Component.free p.terminals p.steiner, ∀ es,
        IsTree (c.sink :: c.sources ++ extra) es →
          (c.cost : WithTop K) ≤ outlay (m.between p.place) es + p.tolerance.epsilon := by
  obtain ⟨cs, hcs, hgenerate⟩ := h.exists_all
  refine ⟨cs, hgenerate, fun c hc => ?_, fun set hset h2 hle sink hsink => ?_,
    fun c hc c' hc' hsame => ?_, fun c hc => ?_, fun c hc h3 extra hextra es htree => ?_⟩
  · exact Component.proper_of_all h.nodup h.finite hcs hc
  · exact Component.countP_all h.nodup hcs hset h2 hle hsink
  · exact Component.same_price h.nodup hcs hc hc' hsame
  · exact Component.exists_tree_of_all h.nodup h.finite hcs hc
  · exact Component.cost_le_outlay h0 h.nodup h.metrical h.finite hcs hc h3 hextra htree

def clover : Metric ℚ where
  rows := #[#[some 0, some 2, some 2, some 1], #[some 2, some 0, some 2, some 1],
    #[some 2, some 2, some 0, some 1], #[some 1, some 1, some 1, some 0]]

def cloverProblem : SteinerTree ℚ Unit where
  tolerance := ⟨0⟩
  graph := {}
  costName := "cost"
  terminals := [.number 0, .number 1, .number 2]
  steiner := [.number 3]
  vertices := [.number 0, .number 1, .number 2, .number 3]
  limit := 3
  sink := .ofList []
  solutionCost := 0
  metric := some clover
  oracle := { strategy := .first, dice := () }
  dice := ()

theorem measured_clover : Measured cloverProblem clover :=
  ⟨by decide, by decide, by decide, rfl,
    ⟨rfl, by decide, by decide +kernel, by decide +kernel, by decide +kernel⟩, by decide +kernel⟩

theorem clover_generated : ∃ cs, ∃ c ∈ cs,
    cloverProblem.generate = .ok { cloverProblem with components := cs } ∧
      c.sink = .number 0 ∧ c.sources.toFinset = {.number 1, .number 2} ∧
      (c.cost : WithTop ℚ) ≤ 3 := by
  obtain ⟨cs, hgenerate, -, hcount, -, -, hleast⟩ := generate_exact measured_clover le_rfl
  have hone := hcount {.number 0, .number 1, .number 2} (by decide) (by decide) (by decide)
    (.number 0) (by decide)
  obtain ⟨c, hc, hkey⟩ := List.countP_pos_iff.mp (hone ▸ Nat.one_pos)
  have hkey : c.sink = .number 0 ∧ c.sources.toFinset = {.number 1, .number 2} := by
    simpa using hkey
  let rays : List (Node × Node) := [(.number 0, .number 3), (.number 1, .number 3),
    (.number 2, .number 3)]
  have hjoin : ∀ v ∈ [Node.number 0, .number 1, .number 2, .number 3],
      Joined rays v (.number 3) := by
    intro v hv
    by_cases h3 : v = .number 3
    · exact h3 ▸ .refl
    · refine Adjacent.joined (.inl ?_)
      simpa [rays, h3] using hv
  have hconn : Connected [Node.number 0, .number 1, .number 2, .number 3] rays :=
    fun u hu v hv => (hjoin u hu).trans (hjoin v hv).symm
  have hmem (v : Node) : v ∈ c.sink :: c.sources ++ [.number 3] ↔
      v ∈ [Node.number 0, .number 1, .number 2, .number 3] := by
    have hv : v ∈ c.sources ↔ v = .number 1 ∨ v = .number 2 := by
      rw [← List.mem_toFinset, hkey.2]
      simp
    simp [hkey.1, hv, or_assoc]
  have htree : IsTree (c.sink :: c.sources ++ [.number 3]) rays := by
    refine ⟨fun u hu v hv => hconn u ((hmem u).mp hu) v ((hmem v).mp hv),
      hconn.acyclic (by decide) rfl, fun e he => ?_⟩
    rw [hmem, hmem]
    revert e
    decide
  refine ⟨cs, c, hc, hgenerate, hkey.1, hkey.2, (hleast c hc ?_ [.number 3] (by decide) rays
    htree).trans ?_⟩
  · rw [Component.members, hkey.1, hkey.2]
    decide
  · decide +kernel

end SteinerTree

end LPRounding
