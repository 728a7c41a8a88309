import LPRounding.Proofs.SteinerTree.Invariant
import LPRounding.Proofs.LP.Trying
import LPRounding.Proofs.Flow.Checked

/-!
What the answer of a Steiner tree run is worth: the terminals and the added vertices are connected
by a tree of shortest paths that costs no more than the run reports, whatever components were picked.
-/

namespace LPRounding.SteinerTree

set_option linter.unusedSectionVars false

variable {K S : Type} [Field K] [LinearOrder K] [IsStrictOrderedRing K] [FloorRing K]
  {p : SteinerTree K S} {g : Graph K}

theorem make_eq_ok {ε : K} {terminals : List Node} {steiner : Option (List Node)}
    {costName : String} {limit : Int} {entries : List Choice} {strategy : Strategy}
    {searchDice pickDice : S}
    (h : make ε g terminals steiner costName limit entries strategy searchDice pickDice = .ok p) :
    p.graph = g ∧ p.costName = costName ∧ p.terminals = extend [] terminals ∧
      p.vertices = p.terminals ++ p.steiner ∧ p.vertices.Nodup ∧ p.sink = .ofList entries ∧
      p.metric = none ∧ p.solutionCost = 0 ∧ p.components = [] := by
  unfold make at h
  split at h
  · cases h
  obtain ⟨t, ht, h⟩ := ok_bind_iff.mp h
  obtain rfl := Except.ok.inj h
  refine ⟨rfl, rfl, rfl, rfl, ?_, rfl, rfl, rfl, rfl⟩
  refine List.nodup_append.mpr ⟨nodup_extend .nil, (nodup_extend .nil).filter _, ?_⟩
  rintro v hv _ hv' rfl
  simpa [hv] using List.of_mem_filter hv'

theorem of_issue (hg : p.graph.Valid) (h : p.issue = none) :
    p.terminals ⊆ p.graph.vertices ∧ p.steiner ⊆ p.graph.vertices ∧
      Connected p.terminals p.graph.pairs := by
  unfold issue at h
  split at h
  · cases h
  next hterminals =>
  split at h
  · cases h
  next hsteiner =>
  have hsub : p.terminals ⊆ p.graph.vertices := fun v hv => by
    simpa using List.find?_eq_none.mp hterminals v hv
  refine ⟨hsub, fun v hv => by simpa using List.find?_eq_none.mp hsteiner v hv, ?_⟩
  have hends : ∀ e ∈ p.graph.pairs, e.1 ∈ p.graph.vertices ∧ e.2 ∈ p.graph.vertices := by
    intro e he
    obtain ⟨f, hf, rfl⟩ := List.mem_map.mp he
    exact hg.edge_ends hf
  split at h
  · next hnil =>
    rw [hnil]
    intro u hu
    cases hu
  · next root rest hcons =>
    have hroot : root ∈ p.graph.vertices := hsub (hcons ▸ List.mem_cons_self)
    have hreach {v : Node} (hv : v ∈ p.terminals) : Joined p.graph.pairs root v := by
      rcases List.mem_cons.mp (hcons ▸ hv) with rfl | hv
      · exact .refl
      · refine joined_of_connectedTo hends hroot ?_
        simpa using List.find?_eq_none.mp (Option.map_eq_none_iff.mp h) v hv
    exact fun u hu v hv => (hreach hu).symm.trans (hreach hv)

theorem exists_distances (hg : p.graph.Valid) (hcost : ∀ l ∈ p.graph.links, 0 ≤ l.cost p.costName)
    (hn : p.vertices.Nodup) (hsub : p.vertices ⊆ p.graph.vertices) :
    ∃ m, p.distances = .ok m ∧ m.size = p.vertices.length ∧
      ∀ u ∈ p.vertices, ∀ v ∈ p.vertices,
        (∀ d : K, m.between p.place u v = d → Walk p.graph p.costName u v d) ∧
          ∀ c, Walk p.graph p.costName u v c → m.between p.place u v ≤ c := by
  let order := p.vertices ++ p.graph.vertices.filter fun v => v ∉ p.vertices
  have hnodup : order.Nodup := by
    refine List.nodup_append.mpr ⟨hn, hg.nodup.filter _, ?_⟩
    rintro v hv _ hv' rfl
    simpa [hv] using List.of_mem_filter hv'
  have hmem (v : Node) : v ∈ order ↔ v ∈ p.graph.vertices := by
    by_cases hv : v ∈ p.vertices
    · simp [order, hv, hsub hv]
    · simp [order, hv]
  have hperm := (List.perm_ext_iff_of_nodup hnodup hg.nodup).mpr hmem
  obtain ⟨m, hm⟩ : ∃ m, Metric.ofGraph p.graph p.costName order = .ok m := by
    unfold Metric.ofGraph
    rw [if_pos ⟨hperm.length_eq, hnodup, fun v hv => (hmem v).mp hv⟩]
    exact ⟨_, rfl⟩
  refine ⟨m.restrict p.vertices.length, ok_bind_iff.mpr ⟨m, hm, rfl⟩, Metric.size_tabulate _,
    fun u hu v hv => ?_⟩
  have hbetween : (m.restrict p.vertices.length).between p.place u v =
      m.far (order.idxOf u) (order.idxOf v) := by
    rw [Metric.between, place, place, Metric.far_restrict (List.idxOf_lt_length_of_mem hu)
      (List.idxOf_lt_length_of_mem hv), List.idxOf_append_of_mem hu, List.idxOf_append_of_mem hv]
  rw [hbetween]
  exact Metric.ofGraph_spec hg hcost hm (List.mem_append_left _ hu) (List.mem_append_left _ hv)

theorem exists_ready (hg : p.graph.Valid) (hcost : ∀ l ∈ p.graph.links, 0 ≤ l.cost p.costName)
    (hvertices : p.vertices = p.terminals ++ p.steiner) (hn : p.vertices.Nodup)
    (hissue : p.issue = none) :
    ∃ m, Ready p m ∧ ∀ u ∈ p.vertices, ∀ v ∈ p.vertices, ∀ d : K, m.between p.place u v = d →
      IsDistance p.graph p.costName u v d := by
  obtain ⟨hterminals, hsteiner, hconn⟩ := of_issue hg hissue
  obtain ⟨m, hm, hsize, hspec⟩ := exists_distances hg hcost hn
    (hvertices ▸ List.append_subset.mpr ⟨hterminals, hsteiner⟩)
  have hin {v : Node} (hv : v ∈ p.terminals) : v ∈ p.vertices :=
    hvertices ▸ List.mem_append_left _ hv
  refine ⟨m, ⟨hm, hvertices, hn, hsize, fun u hu v hv => ?_⟩, fun u hu v hv d hd => ?_⟩
  · obtain ⟨c, hc⟩ := hg.exists_walk (hconn u hu v hv)
    exact ne_top_of_le_ne_top WithTop.coe_ne_top ((hspec u (hin hu) v (hin hv)).2 c hc)
  · obtain ⟨hwalk, hle⟩ := hspec u hu v hv
    exact ⟨hwalk d hd, fun c hc => WithTop.coe_le_coe.mp (hd ▸ hle c hc)⟩

theorem exists_weights {V : Type} {d : V → V → WithTop K} {pairs : List (V × V)}
    (h : outlay d pairs ≠ ⊤) : ∃ es : List (Weighted V K), es.map Weighted.ends = pairs ∧
      (∀ e ∈ es, d e.u e.v = e.weight) ∧ outlay d pairs = (es.map Weighted.weight).sum := by
  induction pairs with
  | nil => exact ⟨[], rfl, by simp, rfl⟩
  | cons p pairs ih =>
    rw [outlay_cons] at h
    obtain ⟨hp, hpairs⟩ := WithTop.add_ne_top.mp h
    obtain ⟨a, ha⟩ := WithTop.ne_top_iff_exists.mp hp
    obtain ⟨es, rfl, hes, hsum⟩ := ih hpairs
    refine ⟨⟨p.1, p.2, a⟩ :: es, rfl, List.forall_mem_cons.mpr ⟨ha.symm, hes⟩, ?_⟩
    rw [outlay_cons, hsum, ← ha, List.map_cons, List.sum_cons, WithTop.coe_add]

theorem Bought.connected {q : SteinerTree K S} {m₀ : Metric K} {added : List Node}
    {pairs : List (Node × Node)} (h : Bought p m₀ added pairs q) (hq : q.terminals.length < 2) :
    Connected (p.terminals ++ added) pairs := by
  intro u hu v hv
  obtain ⟨s, hs, hus⟩ := h.reach u hu
  obtain ⟨t, ht, hvt⟩ := h.reach v hv
  have hone : q.terminals.length = 1 := by
    have := List.length_pos_of_mem hs
    omega
  obtain ⟨r, hr⟩ := List.length_eq_one_iff.mp hone
  rw [hr, List.mem_singleton] at hs ht
  exact (hs ▸ hus).trans (ht ▸ hvt).symm

/-- Some of the pairs that were paid for are a spanning tree. -/
theorem Bought.exists_tree {q : SteinerTree K S} {m₀ : Metric K} {added : List Node}
    {pairs : List (Node × Node)} (h : Bought p m₀ added pairs q) (hp : Ready p m₀)
    (hcost : ∀ l ∈ p.graph.links, 0 ≤ l.cost p.costName)
    (hdistance : ∀ u ∈ p.vertices, ∀ v ∈ p.vertices, ∀ d : K, m₀.between p.place u v = d →
      IsDistance p.graph p.costName u v d) (hq : q.terminals.length < 2) :
    ∃ tree : List (Weighted Node K),
      (∀ e ∈ tree, e.u ∈ p.terminals ++ added ∧ e.v ∈ p.terminals ++ added ∧
        IsDistance p.graph p.costName e.u e.v e.weight) ∧
      Connected (p.terminals ++ added) (tree.map Weighted.ends) ∧
      Acyclic (tree.map Weighted.ends) ∧ (tree.map Weighted.weight).sum ≤ q.solutionCost := by
  obtain ⟨es, rfl, hes, hsum⟩ := exists_weights (ne_top_of_le_ne_top WithTop.coe_ne_top h.paid)
  obtain ⟨tree, hsub, hconn, hacyclic⟩ := (h.connected hq).exists_acyclic
  have hvs : p.terminals ++ added ⊆ p.vertices :=
    List.append_subset.mpr ⟨hp.terminals_subset, fun v hv => hp.steiner_subset (h.inside hv)⟩
  have hedge {e : Weighted Node K} (he : e ∈ es) :
      e.u ∈ p.terminals ++ added ∧ e.v ∈ p.terminals ++ added ∧
        IsDistance p.graph p.costName e.u e.v e.weight := by
    obtain ⟨hu, hv⟩ := h.ends _ (List.mem_map_of_mem he)
    exact ⟨hu, hv, hdistance _ (hvs hu) _ (hvs hv) _ (hes e he)⟩
  refine ⟨tree, fun e he => hedge (hsub.subset he), hconn, hacyclic, ?_⟩
  calc (tree.map Weighted.weight).sum
      ≤ (es.map Weighted.weight).sum := by
        refine (hsub.map _).sum_le_sum fun w hw => ?_
        obtain ⟨e, he, rfl⟩ := List.mem_map.mp hw
        exact (hedge he).2.2.nonneg hcost
    _ ≤ q.solutionCost := WithTop.coe_le_coe.mp (hsum ▸ h.paid)

theorem of_solve [Backend K] [Dice S K] {out : Outcome K} {t : Run (SteinerTree K S) K}
    (h : Returns (solve policies) { problem := p } out t) (ho : out.status = .optimal) :
    p.issue = none ∧ out.objective = some t.problem.solutionCost ∧
      ∀ m₀, Ready p m₀ → Kept p m₀ p →
        Kept p m₀ t.problem ∧ t.problem.terminals.length < 2 := by
  obtain ⟨first, u, hrun, h⟩ := returns_bind.mp h
  split at h
  swap
  · next hne =>
    obtain ⟨rfl, -⟩ := returns_pure.mp h
    exact absurd ho hne
  next hfirst =>
  simp only [returns_bind, Action.returns_problem, returns_pure] at h
  obtain ⟨_, _, ⟨rfl, rfl⟩, rfl, rfl⟩ := h
  obtain ⟨v, w, hcheck, hinit, hrun⟩ := Engine.returns_checked hrun
  obtain ⟨_, _, hp, hcheck⟩ := returns_bind.mp hcheck
  obtain ⟨rfl, rfl⟩ := Action.returns_problem.mp hp
  obtain ⟨hissue, rfl⟩ := returns_pure.mp hcheck
  refine ⟨hissue, rfl, fun m₀ hready hkept => ?_⟩
  obtain ⟨last, v, hlast, hstop, hset, hend, -⟩ :=
    Engine.runDependent_carries (policies_carries hready) rfl hrun hfirst
      (Kept.build (by exact hkept) hready hinit)
  obtain ⟨-, rfl⟩ := returns_pure.mp hset
  rw [hend]
  refine ⟨hlast, ?_⟩
  simp only [policies, returns_bind, Action.returns_problem, returns_pure] at hstop
  obtain ⟨_, _, ⟨rfl, rfl⟩, hone, -⟩ := hstop
  simpa using hone

/-- The terminals and the vertices an answer adds have a spanning tree of shortest paths that costs
no more than the answer. -/
theorem answer_joins_terminals [Backend K] [Dice S K] {ε : K} {terminals : List Node}
    {steiner : Option (List Node)} {costName : String} {limit : Int} {entries : List Choice}
    {strategy : Strategy} {searchDice pickDice : S} (hg : g.Valid)
    (hcost : ∀ l ∈ g.links, 0 ≤ l.cost costName)
    (hmake : make ε g terminals steiner costName limit entries strategy searchDice pickDice = .ok p)
    {out : Outcome K} {t : Run (SteinerTree K S) K}
    (h : Returns (solve policies) { problem := p } out t) (ho : out.status = .optimal) :
    out.objective = some t.problem.solutionCost ∧
    ∃ added : List Node, t.problem.sink.entries = entries ++ added.map .vertex ∧
      added.Nodup ∧ added ⊆ p.steiner ∧
      ∃ tree : List (Weighted Node K),
        (∀ e ∈ tree, e.u ∈ terminals ++ added ∧ e.v ∈ terminals ++ added ∧
          IsDistance g costName e.u e.v e.weight) ∧
        Connected (terminals ++ added) (tree.map Weighted.ends) ∧
        Acyclic (tree.map Weighted.ends) ∧
        (tree.map Weighted.weight).sum ≤ t.problem.solutionCost := by
  obtain ⟨rfl, rfl, hterminals, hvertices, hn, hsink, hmetric, hzero, hcomponents⟩ :=
    make_eq_ok hmake
  obtain ⟨hissue, hobjective, hrun⟩ := of_solve h ho
  obtain ⟨m₀, hready, hdistance⟩ := exists_ready hg hcost hvertices hn hissue
  obtain ⟨⟨⟨added, pairs, hlast⟩, -⟩, hone⟩ := hrun m₀ hready
    ⟨⟨_, _, bought_nothing hsink hmetric hzero⟩, by simp [Offers, hcomponents]⟩
  refine ⟨hobjective, added, by rw [hlast.sink, hsink]; rfl, hlast.nodup, hlast.inside, ?_⟩
  obtain ⟨tree, hends, hconn, hacyclic, hsum⟩ := hlast.exists_tree hready hcost hdistance hone
  -- repeated terminals count once
  have hmem {v : Node} : v ∈ p.terminals ++ added ↔ v ∈ terminals ++ added := by
    rw [hterminals, List.mem_append, List.mem_append, mem_extend]
    simp
  refine ⟨tree, fun e he => ?_, fun u hu v hv => hconn u (hmem.mpr hu) v (hmem.mpr hv), hacyclic,
    hsum⟩
  obtain ⟨hu, hv, hd⟩ := hends e he
  exact ⟨hmem.mp hu, hmem.mp hv, hd⟩

def broom : Graph ℚ where
  kind := .simple
  vertices := [.number 0, .number 1, .number 2, .number 3, .number 4]
  links := [
    { tail := .number 0, head := .number 1, key := 0, attrs := [("cost", 1)] },
    { tail := .number 0, head := .number 2, key := 0, attrs := [("cost", 1)] },
    { tail := .number 0, head := .number 3, key := 0, attrs := [("cost", 1)] },
    { tail := .number 3, head := .number 4, key := 0, attrs := [("cost", 1)] }]

theorem broom_valid : broom.Valid :=
  ⟨by decide, by decide, by decide⟩

@[reducible] def broomBackend : Backend ℚ :=
  .trying [(List.range 24).map fun j => if j = 10 ∨ j = 12 then 1 else 0, [1, 0]]
    (FlowFinder.checked Augment.finder) 5

def broomTerminals : List Node := [.number 1, .number 2, .number 3, .number 4]

theorem broom_joined :
    let _ := broomBackend
    let _ : Dice (List Nat) ℚ := Dice.listed
    ∃ (p : SteinerTree ℚ (List Nat)) (out : Outcome ℚ) (t : Run (SteinerTree ℚ (List Nat)) ℚ),
      make (1 / 10) broom broomTerminals none "cost" 3 [] .first [] [12, 0] = .ok p ∧
      Returns (solve policies) { problem := p } out t ∧ out.objective = some 4 ∧
      t.problem.sink.entries = [.vertex (.number 0)] ∧
      ∃ tree : List (Weighted Node ℚ),
        Connected (broomTerminals ++ [.number 0]) (tree.map Weighted.ends) ∧
        Acyclic (tree.map Weighted.ends) ∧ (tree.map Weighted.weight).sum ≤ 4 := by
  let _ := broomBackend
  let _ : Dice (List Nat) ℚ := Dice.listed
  have hforest : (Weighted.minimumForest : List (Weighted Nat ℚ) → _) = _ :=
    funext Weighted.minimumForest_eq_ite
  obtain ⟨p, hp, hrun⟩ := exists_ok
    (make (1 / 10) broom broomTerminals none "cost" 3 [] .first [] ([12, 0] : List Nat))
    (fun p => yields (do return (← solve policies, ← Action.problem)) { problem := p }
      fun (out, q) => out.status = .optimal ∧ out.objective = some 4 ∧
        q.sink.entries = [.vertex (.number 0)]) (by
      -- the tree over the terminals that are picked has edges of one weight, which need no sorting
      delta policies build SteinerTree.generate Component.all Component.ofSet Component.priced
        Component.treeCost
      rw [hforest]
      decide +kernel)
  obtain ⟨⟨out, q⟩, t, h, ho⟩ := exists_returns hrun
  simp only [returns_bind, Action.returns_problem, returns_pure] at h
  obtain ⟨_, _, h, _, _, ⟨rfl, rfl⟩, heq, rfl⟩ := h
  obtain ⟨rfl, rfl⟩ := Prod.mk.inj heq
  obtain ⟨ho, hobjective, hentries⟩ := of_decide_eq_true ho
  obtain ⟨hcost, added, hadded, -, -, tree, -, hconn, hacyclic, hsum⟩ :=
    answer_joins_terminals broom_valid (by decide +kernel) hp h ho
  rw [← Option.some.inj (hobjective.symm.trans hcost)] at hsum
  obtain rfl : added = [.number 0] := by
    rw [hentries, List.nil_append, eq_comm, List.map_eq_singleton_iff] at hadded
    obtain ⟨v, rfl, hv⟩ := hadded
    rw [Choice.vertex.inj hv]
  exact ⟨p, _, _, hp, h, hobjective, hentries, tree, hconn, hacyclic, hsum⟩

end LPRounding.SteinerTree
