import LPRounding.Proofs.Run.Invariant
import LPRounding.Proofs.Run.Separation
import LPRounding.Proofs.Run.Ledger
import LPRounding.Proofs.LP.Trying
import LPRounding.Proofs.Graph.Requirements
import LPRounding.Proofs.Flow.Edges
import LPRounding.Proofs.Flow.Checked
import LPRounding.Problem.SteinerNetwork

/-!
Steiner networks: the edges of every answer meet every requirement. The last point was accepted,
so the flows between the pairs of the forest are large enough, and no cut is smaller than a flow
across it.
-/

namespace LPRounding.SteinerNetwork

set_option linter.unusedSectionVars false

variable {K S : Type} [Field K] [LinearOrder K] [IsStrictOrderedRing K] [FloorRing K]
  {p q : SteinerNetwork K S} {m : Model K}

/-- Whether one end of an edge is in the set and the other is not. -/
def crosses (set : Finset Node) (e : Node × Node) : Bool :=
  decide (e.1 ∈ set) != decide (e.2 ∈ set)

/-- How many edges of an answer leave the set; parallel edges count one by one. -/
def crossings (set : Finset Node) (cs : List Choice) : Nat := ((ends cs).filter (crosses set)).length

theorem make_eq_ok {ε : K} {g : Graph K} {required : Requirements K} {costName : String}
    {entries : List Choice} {strategy : Strategy} {dice : S}
    (h : make ε g required costName entries strategy dice = .ok p) :
    p.graph = g ∧ p.edges = g.edges ∧ p.requirements = required ∧
      required.prune g.vertices = .ok p.pairs ∧ p.tolerance.epsilon = ε ∧ 0 ≤ ε ∧
      p.sink = .ofList entries := by
  unfold make at h
  split at h
  · cases h
  simp only [ok_bind_iff] at h
  obtain ⟨pairs, hp, tol, ht, h⟩ := h
  obtain rfl := Except.ok.inj h
  obtain ⟨hε, rfl⟩ := Tolerance.ofEpsilon_eq_ok.mp ht
  exact ⟨rfl, rfl, rfl, hp, rfl, hε, rfl⟩

theorem entries_of_point {x : Solution K} {entries : List (Edge K × K)} (hx : m.solution = some x)
    (h : p.point m = .ok entries) :
    entries = p.edges.zipIdx.map fun (e, j) => (e, x.values.getD j 0) := by
  refine eq_map_of_mapM ?_ h
  rintro ⟨e, j⟩ y hy
  obtain ⟨v, hv, hy⟩ := ok_bind_iff.mp hy
  obtain rfl := Except.ok.inj hy
  obtain rfl := Model.eq_getD_of_columnValue hx hv
  rfl

/-- The edges of the graph whose columns are above zero, with their values. -/
def shown (p : SteinerNetwork K S) (x : List K) : List (Edge K × K) :=
  (p.edges.zipIdx.map fun (e, j) => (e, x.getD j 0)).filter fun e => p.tolerance.above e.2 0

theorem of_mem_shown {x : List K} {e : Edge K × K} (h : e ∈ p.shown x) :
    e.1 ∈ p.edges ∧ p.tolerance.epsilon < e.2 := by
  obtain ⟨he, ha⟩ := List.mem_filter.mp h
  obtain ⟨⟨e', j⟩, he', rfl⟩ := List.mem_map.mp he
  refine ⟨List.fst_mem_of_mem_zipIdx he', ?_⟩
  simpa using (Tolerance.above_iff _ _ _).mp ha

theorem prepare_eq_ok {x : Solution K} (hx : m.solution = some x) {n : Network Site K}
    {cs : List (Node × Node)} (h : p.prepare m = .ok (n, cs)) :
    n = joined p.emptyNetwork (p.shown x.values) ∧ cs = p.pairs := by
  obtain ⟨entries, hpoint, h⟩ := ok_bind_iff.mp h
  obtain ⟨rfl, rfl⟩ := Prod.mk.inj (Except.ok.inj h)
  rw [entries_of_point hx hpoint]
  exact ⟨rfl, rfl⟩

theorem spread_joined (p : SteinerNetwork K S) (entries : List (Edge K × K)) :
    (joined p.emptyNetwork entries).Spread (Network.capacity entries) ∧
      ∀ s, s ∈ (joined p.emptyNetwork entries).vertices ↔ (∃ v ∈ p.graph.vertices, .vertex v = s) ∨
        ∃ e ∈ entries, s = .vertex e.1.name.u ∨ s = .vertex e.1.name.v :=
  Network.spread_graph p.graph.vertices entries

def onSide (set : Finset Node) : Site → Bool
  | .vertex v => decide (v ∈ set)
  | _ => false

/-- What the edges across a set carry. -/
def across (set : Finset Node) (entries : List (Edge K × K)) : K :=
  (entries.map fun e => e.2 * if crosses set (e.1.name.u, e.1.name.v) then 1 else 0).sum

section Measured

variable {entries : List (Edge K × K)} {pair : Node × Node}

theorem cutRoom_joined (hg : p.graph.Valid)
    (he : ∀ e ∈ entries, e.1 ∈ p.graph.edges ∧ 0 ≤ e.2) (set : Finset Node) {near : Finset Site}
    {b : Bool} (hnear : ∀ v ∈ p.graph.vertices, .vertex v ∈ near ↔ decide (v ∈ set) = b) :
    (joined p.emptyNetwork entries).cutRoom near = across set entries := by
  obtain ⟨hs, hmem⟩ := p.spread_joined entries
  have hends {e : Edge K × K} (hm : e ∈ entries) :
      e.1.name.u ∈ p.graph.vertices ∧ e.1.name.v ∈ p.graph.vertices := hg.edge_ends (he e hm).1
  rw [hs.cutRoom_eq (fun e hm => (he e hm).2), across]
  · congr 1
    refine List.map_congr_left fun e hm => ?_
    obtain ⟨hu, hv⟩ := hends hm
    have hcross : decide (Site.vertex e.1.name.u ∈ near) ≠ decide (Site.vertex e.1.name.v ∈ near) ↔
        crosses set (e.1.name.u, e.1.name.v) = true := by
      simp only [hnear _ hu, hnear _ hv, crosses]
      cases b <;> by_cases e.1.name.u ∈ set <;> by_cases e.1.name.v ∈ set <;> simp [*]
    simp only [hcross, mul_ite, mul_one, mul_zero]
  · intro e hm
    obtain ⟨hu, hv⟩ := hends hm
    exact ⟨(hmem _).mpr (.inl ⟨_, hu, rfl⟩), (hmem _).mpr (.inl ⟨_, hv, rfl⟩)⟩

theorem le_across [Backend K] (hg : p.graph.Valid)
    (hflow : (Backend.flow : FlowFinder Site K).Sound)
    (he : ∀ e ∈ entries, e.1 ∈ p.graph.edges ∧ 0 ≤ e.2) {v : Violation K (Node × Node)}
    (hv : p.measure (joined p.emptyNetwork entries) pair = .ok v) {set : Finset Node}
    (hset : decide (pair.1 ∈ set) ≠ decide (pair.2 ∈ set)) :
    p.requirements.need pair.1 pair.2 - v.magnitude ≤ across set entries := by
  obtain ⟨hs, hmem⟩ := p.spread_joined entries
  obtain ⟨cut, hcut, hv⟩ := ok_bind_iff.mp hv
  obtain rfl := Except.ok.inj hv
  obtain ⟨hasked, hvalue, -⟩ := FlowFinder.of_siteCut hs.valid hcut
  -- the side of the first end, whichever of the two sides that is
  let n := joined p.emptyNetwork entries
  let near := n.vertices.toFinset.filter fun s => onSide set s = onSide set (.vertex pair.1)
  have hnear {w : Node} : .vertex w ∈ near ↔
      .vertex w ∈ n.vertices ∧ decide (w ∈ set) = decide (pair.1 ∈ set) := by
    rw [Finset.mem_filter, List.mem_toFinset]
    rfl
  have hcross : _ ≤ n.cutRoom near := (hflow _ _ _ hasked).value_le (Finset.filter_subset _ _)
    (hnear.mpr ⟨hasked.2.1, rfl⟩) fun ht => hset (hnear.mp ht).2.symm
  rw [cutRoom_joined hg he set fun w hw =>
    hnear.trans (and_iff_right ((hmem _).mpr (.inl ⟨w, hw, rfl⟩))), ← hvalue] at hcross
  linarith

end Measured

/-- What holds of a problem `q` and its model throughout a run that started with `p`. -/
structure Kept (p q : SteinerNetwork K S) (m : Model K) : Prop where
  same : ∃ sink oracle, q = { p with sink, oracle }
  ledger : Ledger (p.edges.map Edge.name) p.sink.entries p.model m q.sink

theorem kept_model {entries : List Choice} (hs : p.sink = .ofList entries) :
    Kept p p p.model := by
  refine ⟨⟨_, _, rfl⟩, ?_⟩
  rw [hs]
  exact .ofList (by simp [model, column])

theorem Kept.solve {solver : Solver K} (hsolver : solver.Sound) {m' : Model K} (h : Kept p q m)
    (hs : Returns (Model.solve solver) m .optimal m') : Kept p q m' ∧ m'.Solved :=
  ⟨⟨h.same, h.ledger.solve hs⟩, Model.solved_of_solve hsolver hs⟩

theorem Kept.drop {m' : Model K} {j : Nat} (h : Kept p q m)
    (hf : Returns (Model.fixColumn j 0) m () m') : Kept p q m' :=
  ⟨h.same, h.ledger.drop hf⟩

theorem Kept.search {o : Oracle K S (Node × Node) (Network Site K)} (h : Kept p q m) :
    Kept p (home.set q o) m := by
  obtain ⟨sink, oracle, rfl⟩ := h.same
  exact ⟨⟨_, _, rfl⟩, h.ledger⟩

theorem Kept.append {r : Row K} (h : Kept p q m) :
    Kept p q { m with rows := m.rows ++ [r] } :=
  ⟨h.same, h.ledger.append r⟩

theorem returns_commit {s t : Run (SteinerNetwork K S) K} {j : Nat}
    (h : Returns (commit j) s () t) :
    ∃ e, s.problem.edges[j]? = some e ∧
      t = { s with problem := { s.problem with sink := s.problem.sink.push (.edge e.name) } } := by
  simp only [commit, returns_bind, Action.returns_problem] at h
  obtain ⟨_, _, ⟨rfl, rfl⟩, h⟩ := h
  split at h
  · simp at h
  · next e he => exact ⟨e, he, (returns_modify.mp h).symm⟩

theorem Kept.take {s t : Run (SteinerNetwork K S) K} {j : Nat} {m' : Model K}
    (h : Kept p s.problem s.lp) (hc : Returns (commit j) s () t)
    (hf : Returns (Model.fixColumn j 1) t.lp () m') : Kept p t.problem m' := by
  obtain ⟨e, he, rfl⟩ := returns_commit hc
  obtain ⟨sink, oracle, hq⟩ := h.same
  have hname : (p.edges.map Edge.name)[j]? = some e.name := by
    rw [hq] at he
    rw [List.getElem?_map, he]
    rfl
  refine ⟨⟨s.problem.sink.push (.edge e.name), oracle, ?_⟩, h.ledger.take hname hf⟩
  simp only [hq]

def Settled [Backend K] (p q : SteinerNetwork K S) (m : Model K) : Prop :=
  Kept p q m ∧ m.Solved ∧ Oracle.Accepts checker p.tolerance p m

theorem policies_keeps [Backend K] [Dice S K] (p : SteinerNetwork K S)
    (hsolver : (Backend.solver : Solver K).Sound) :
    Engine.Keeps (policies (K := K) (S := S)) RoundRule.commitHalf.apply (Kept p) (Kept p)
      (Settled p) := by
  have horacle : Oracle.Keeps home checker tolerance (Kept p) :=
    ⟨rfl, rfl, fun h hs => h.solve hsolver hs, fun h => h.search,
      fun h _ => h.append, fun _ _ => rfl, fun _ _ _ => rfl⟩
  have generate {s t : Run (SteinerNetwork K S) K} (h : Kept p s.problem s.lp)
      (hs : Returns SolveRule.generating.apply s .optimal t) : Settled p t.problem t.lp := by
    obtain ⟨q, o, hq, hk, hx, ha⟩ := horacle.generating h hs
    rw [hq]
    obtain ⟨sink, oracle, rfl⟩ := hk.same
    exact ⟨hk.search, hx, ha⟩
  refine ⟨generate, generate, fun h => h.1, id, RoundRule.commits_commitHalf.skip,
    RoundRule.commits_commitHalf.fix (Kept p) Kept.drop Kept.take, ?_, ?_⟩
  · intro s t i h
    obtain ⟨-, rfl⟩ := returns_pure.mp h
    exact ⟨rfl, rfl⟩
  · intro s t i m h hr hf
    obtain ⟨hb, -⟩ := returns_pure.mp hr
    cases hb

theorem returns_check [Backend K] {s t : Run (SteinerNetwork K S) K}
    (h : Returns check s none t) : s = t := by
  simp only [check, returns_bind, Action.returns_problem] at h
  obtain ⟨_, _, ⟨rfl, rfl⟩, h⟩ := h
  split at h
  · simp at h
  obtain ⟨v, u, hv, h⟩ := returns_bind.mp h
  obtain ⟨-, rfl⟩ := returns_lift.mp hv
  cases v with
  | none => exact (returns_pure.mp h).2
  | some v => simp at h

/-- At a point that is accepted what a pair of the forest requires is across every set between its
ends. -/
theorem need_le_across [Backend K] (ha : Oracle.Accepts checker p.tolerance p m)
    (hg : p.graph.Valid) (hp : p.edges = p.graph.edges) (h0 : 0 ≤ p.tolerance.epsilon)
    (hflow : (Backend.flow : FlowFinder Site K).Sound) {x : Solution K} (hx : m.solution = some x)
    {pair : Node × Node} (hpair : pair ∈ p.pairs) {set : Finset Node}
    (hset : decide (pair.1 ∈ set) ≠ decide (pair.2 ∈ set)) :
    p.requirements.need pair.1 pair.2 - p.tolerance.epsilon ≤ across set (p.shown x.values) := by
  obtain ⟨n, cs, hprep, hclear⟩ := ha
  obtain ⟨rfl, rfl⟩ := prepare_eq_ok hx hprep
  obtain ⟨v, hv, hle⟩ := hclear pair hpair
  have := le_across hg hflow (fun e he => ?_) hv hset
  · linarith
  · obtain ⟨he, hlt⟩ := of_mem_shown he
    exact ⟨hp ▸ he, h0.trans hlt.le⟩

/-- What a pair of the forest requires crosses every set between its ends. -/
theorem Settled.need_le [Backend K] (h : Settled p q m) (hg : p.graph.Valid)
    (hp : p.edges = p.graph.edges) (h0 : 0 ≤ p.tolerance.epsilon) (h1 : p.tolerance.epsilon < 1)
    (hflow : (Backend.flow : FlowFinder Site K).Sound) (hall : m.activeColumns = [])
    {pair : Node × Node} (hpair : pair ∈ p.pairs) {set : Finset Node}
    (hset : decide (pair.1 ∈ set) ≠ decide (pair.2 ∈ set)) :
    p.requirements.need pair.1 pair.2 - p.tolerance.epsilon ≤ crossings set q.sink.added := by
  obtain ⟨hk, ⟨x, hx, hadm⟩, ha⟩ := h
  have hcount : (crossings set q.sink.added : K) =
      ((ends q.sink.added).map fun e => if crosses set e then 1 else 0).sum := by
    rw [crossings, ← sum_map_filter]
    simp
  rw [hcount, ← hk.ledger.sum_above hadm hall (by simp [model]) h0 h1]
  exact need_le_across ha hg hp h0 hflow hx hpair hset

/-- The edges of every answer meet every requirement across every cut, up to the tolerance, and a
whole requirement in full. -/
theorem answer_meets_requirements [Backend K] [Dice S K] {ε : K} {g : Graph K}
    {required : List ((Node × Node) × K)} {costName : String} {entries : List Choice}
    {strategy : Strategy} {dice : S} (hg : g.Valid)
    (hmake : make ε g (.ofList required) costName entries strategy dice = .ok p) (hε : ε < 1)
    (hsolver : (Backend.solver : Solver K).Sound)
    (hflow : (Backend.flow : FlowFinder Site K).Sound) {out : Outcome K}
    {t : Run (SteinerNetwork K S) K}
    (h : Returns (Engine.solveProblem policies) { problem := p } out t)
    (ho : out.status = .optimal) :
    t.problem.sink.entries = entries ++ t.problem.sink.added ∧
    t.problem.sink.added.Nodup ∧ (∀ c ∈ t.problem.sink.added, ∃ e ∈ g.edges, .edge e.name = c) ∧
    ∀ (u v : Node) (r : K) (set : Finset Node),
      (Requirements.ofList required).value? u v = some r → u ∈ set → v ∉ set →
        r - ε ≤ crossings set t.problem.sink.added ∧
        ∀ k : ℤ, r = k → k ≤ crossings set t.problem.sink.added := by
  obtain ⟨hgraph, hedges, hreq, hprune, htol, h0, hsink⟩ := make_eq_ok hmake
  obtain ⟨s, u, hc, hi, hrun⟩ := Engine.returns_solveProblem h
  obtain rfl := returns_check hc
  simp only [policies, build, returns_bind, Action.returns_problem, Action.returns_setModel] at hi
  obtain ⟨_, _, ⟨rfl, rfl⟩, rfl⟩ := hi
  obtain ⟨s, v, hsettled, hall, hset, hpv, -⟩ :=
    Engine.run_keeps (policies_keeps p hsolver) rfl rfl hrun ho (kept_model hsink)
  obtain ⟨-, rfl⟩ := returns_pure.mp hset
  rw [hpv]
  have hledger := hsettled.1.ledger
  refine ⟨?_, ?_, ?_, ?_⟩
  · rw [hledger.entries_eq, hsink]
    rfl
  · exact hledger.nodup_added (hedges ▸ hg.nodup_names)
  · intro c hc
    obtain ⟨e, he, rfl⟩ := hledger.exists_name hc
    obtain ⟨e', he', rfl⟩ := List.mem_map.mp he
    exact ⟨e', hedges ▸ he', rfl⟩
  intro u v r set hr hu hv
  have hmeets : r - ε ≤ crossings set s.problem.sink.added := by
    by_cases hpos : 0 < r
    · let side (w : Node) : Bool := decide (w ∈ set)
      have hside : side u ≠ side v := by simp [side, hu, hv]
      obtain ⟨pair, hpair, hle, hset⟩ := Requirements.exists_pair
        (Requirements.nodup_ofList required) hprune hr hpos hside
      have := hsettled.need_le (hgraph ▸ hg) (hgraph ▸ hedges) (htol ▸ h0) (htol ▸ hε) hflow hall
        hpair hset
      rw [hreq, htol] at this
      linarith
    · have : (0 : K) ≤ crossings set s.problem.sink.added := Nat.cast_nonneg _
      linarith
  refine ⟨hmeets, ?_⟩
  rintro k rfl
  have hlt : (k : K) - 1 < crossings set s.problem.sink.added := by linarith
  have hlt : k - 1 < (crossings set s.problem.sink.added : ℤ) := by exact_mod_cast hlt
  omega

def corner : Graph ℚ where
  kind := .multi
  vertices := [.number 1, .number 2, .number 3]
  links := [
    { tail := .number 1, head := .number 2, key := 0, attrs := [("cost", 1)] },
    { tail := .number 1, head := .number 2, key := 1, attrs := [("cost", 1)] },
    { tail := .number 1, head := .number 3, key := 0, attrs := [("cost", 1)] },
    { tail := .number 2, head := .number 3, key := 0, attrs := [("cost", 5)] }]

theorem corner_valid : corner.Valid :=
  ⟨by decide, by decide, by decide⟩

def cornerNeeds : List ((Node × Node) × ℚ) :=
  [((.number 1, .number 2), 2), ((.number 1, .number 3), 1), ((.number 2, .number 3), 1)]

@[reducible] def cornerBackend : Backend ℚ :=
  .trying [[1, 1, 1, 0]] (FlowFinder.checked Augment.finder) 5

theorem prune_corner : (Requirements.ofList cornerNeeds).prune corner.vertices =
    .ok [(.number 1, .number 2), (.number 1, .number 3)] :=
  (Requirements.prune_of_sorted (by decide +kernel)).trans rfl

theorem corner_answer :
    let _ := cornerBackend
    let _ : Dice Unit ℚ := Dice.zero
    ∃ (p : SteinerNetwork ℚ Unit) (out : Outcome ℚ) (t : Run (SteinerNetwork ℚ Unit) ℚ),
      make (1 / 10) corner (.ofList cornerNeeds) "cost" [] .first () = .ok p ∧
      Returns (Engine.solveProblem policies) { problem := p } out t ∧ out.status = .optimal ∧
      ∀ (set : Finset Node), .number 2 ∈ set → .number 3 ∉ set →
        1 ≤ crossings set t.problem.sink.added := by
  let _ := cornerBackend
  let _ : Dice Unit ℚ := Dice.zero
  obtain ⟨p, hp, hrun⟩ := exists_ok
    (make (1 / 10) corner (.ofList cornerNeeds) "cost" [] .first ()) (solves policies) (by
      rw [make, prune_corner]
      decide +kernel)
  obtain ⟨out, t, h, ho⟩ := exists_answer hrun
  have hs := answer_meets_requirements corner_valid hp (by norm_num) (Solver.trying_sound _)
    (FlowFinder.checked_sound _) h ho
  refine ⟨p, out, t, hp, h, ho, fun set h₂ h₃ => ?_⟩
  have hneed : (Requirements.ofList cornerNeeds).value? (.number 2) (.number 3) = some 1 := by
    decide +kernel
  have hle := (hs.2.2.2 _ _ _ set hneed h₂ h₃).2 1 (by norm_num)
  exact_mod_cast hle

end LPRounding.SteinerNetwork
