import LPRounding.Proofs.BoundedTree.Invariant
import LPRounding.Proofs.BoundedTree.Auxiliary
import LPRounding.Proofs.LP.Trying
import LPRounding.Proofs.Flow.Checked

/-!
Spanning trees with degree bounds: every answer is a spanning tree that exceeds no bound by more
than one. The last point was accepted, so no set of vertices holds as many of its edges as it has
vertices.
-/

namespace LPRounding.BoundedTree

set_option linter.unusedSectionVars false

variable {K S : Type} [Field K] [LinearOrder K] [IsStrictOrderedRing K] [FloorRing K]
  {p q : BoundedTree K S} {m : Model K} {v : Node}

/-- Edges with the values of their columns. -/
def entries (p : BoundedTree K S) (x : List K) : List (Edge K × K) :=
  p.edges.zipIdx.map fun (e, j) => (e, x.getD j 0)

theorem prepare_eq_ok {x : Solution K} (hx : m.solution = some x) {point : TreePoint K}
    {cs : List Node} (h : p.prepare m = .ok (point, cs)) :
    cs = p.graph.vertices ∧ p.edges.zip point.values = p.entries x.values ∧
      point.network =
        p.auxiliary ((p.entries x.values).filter fun e => p.tolerance.above e.2 0) := by
  obtain ⟨values, hv, h⟩ := ok_bind_iff.mp h
  obtain ⟨rfl, rfl⟩ := Prod.mk.inj (Except.ok.inj h)
  have hvalues : values = p.edges.zipIdx.map fun e => x.values.getD e.2 0 := by
    refine eq_map_of_mapM ?_ hv
    rintro ⟨e, j⟩ y hy
    exact Model.eq_getD_of_columnValue hx hy
  have hzip : p.edges.zip values = p.entries x.values := by
    calc p.edges.zip values
        = (p.edges.zipIdx.map Prod.fst).zip (p.edges.zipIdx.map fun e => x.values.getD e.2 0) := by
          rw [List.zipIdx_map_fst, hvalues]
      _ = p.entries x.values := List.zip_map' ..
  exact ⟨rfl, hzip, by rw [← hzip]⟩

section Binary

variable {entries : List (Edge K × K)} {tol : Tolerance K}

theorem weight_ones (hone : ∀ e ∈ entries, e.2 = 1) (set : Finset Node) :
    weight entries set = entries.countP fun e => e.1.name.u ∈ set ∧ e.1.name.v ∈ set := by
  rw [weight, cast_countP]
  refine congrArg List.sum (List.map_congr_left fun e he => ?_)
  simp [hone e he]

theorem above_one (h0 : 0 ≤ tol.epsilon) (hbinary : ∀ e ∈ entries, e.2 = 0 ∨ e.2 = 1) :
    ∀ e ∈ entries.filter fun e => tol.above e.2 0, e.2 = 1 := by
  intro e he
  obtain ⟨he, habove⟩ := List.mem_filter.mp he
  refine (hbinary e he).resolve_left fun hzero => ?_
  simp only [Tolerance.above_iff, zero_add, hzero] at habove
  exact absurd h0 (not_le.mpr habove)

theorem weight_above (h1 : tol.epsilon < 1) (hbinary : ∀ e ∈ entries, e.2 = 0 ∨ e.2 = 1)
    (set : Finset Node) :
    weight (entries.filter fun e => tol.above e.2 0) set = weight entries set := by
  rw [weight, weight, sum_map_filter]
  refine congrArg List.sum (List.map_congr_left fun e he => ?_)
  rcases hbinary e he with hzero | hone
  · simp [hzero]
  · rw [if_pos]
    simpa [hone] using h1

end Binary

section Last

variable {x : Solution K}

theorem Kept.length_eq (h : Kept p q m) : p.edges.length = m.columns.length := by
  rw [h.ledger.grown.length]
  simp [model]

theorem Kept.entries_binary (h : Kept p q m) (hall : m.activeColumns = [])
    (ha : m.Admits x.values) : ∀ e ∈ p.entries x.values, e.2 = 0 ∨ e.2 = 1 := by
  intro e he
  obtain ⟨⟨e', j⟩, hmem, rfl⟩ := List.mem_map.mp he
  have hj : j < m.columns.length := by
    rw [← h.length_eq]
    simpa using List.snd_lt_of_mem_zipIdx hmem
  exact (h.ledger.value_eq ha hall hj).imp And.right And.right

theorem Kept.weight_eq (h : Kept p q m) (hall : m.activeColumns = []) (ha : m.Admits x.values)
    (set : Finset Node) :
    weight (p.entries x.values) set = enclosed set (ends q.sink.added) := by
  rw [enclosed, cast_countP, h.ledger.sum_ends ha hall (by simp [model]), weight, entries,
    List.zipIdx_map, List.map_map, List.map_map]
  refine congrArg List.sum (List.map_congr_left fun _ _ => ?_)
  simp

theorem inside_eq {values : List K} {y : List K} (hv : p.edges.zip values = p.entries y)
    (set : List Node) : p.inside values set = weight (p.entries y) set.toFinset := by
  rw [inside, Scalar.sum_eq, hv, sum_filterMap_ite, weight]
  refine congrArg List.sum (List.map_congr_left fun _ _ => ?_)
  simp

/-- Each set of vertices has less inside than it has members, by one at least. -/
def Sparse (p : BoundedTree K S) (x : List K) : Prop :=
  ∀ set ⊆ p.graph.vertices.toFinset, set.Nonempty → weight (p.entries x) set ≤ set.card - 1

theorem Settled.sparse [Backend K] (h : Settled p q m) (hg : p.graph.Valid)
    (hp : p.edges = p.graph.edges) (h0 : 0 ≤ p.tolerance.epsilon) (h1 : p.tolerance.epsilon < 1)
    (hflow : (Backend.flow : FlowFinder Site K).Exact) (hx : m.solution = some x)
    (hbinary : ∀ e ∈ p.entries x.values, e.2 = 0 ∨ e.2 = 1) : p.Sparse x.values := by
  obtain ⟨-, -, point, cs, hprep, hclear⟩ := h
  obtain ⟨rfl, hvalues, hnetwork⟩ := prepare_eq_ok hx hprep
  intro set hset hne
  obtain ⟨w, hw⟩ := hne
  have hwv : w ∈ p.graph.vertices := List.mem_toFinset.mp (hset hw)
  obtain ⟨viol, hv, hle⟩ := hclear w hwv
  obtain ⟨cut, hcut, hv⟩ := ok_bind_iff.mp hv
  obtain rfl := Except.ok.inj hv
  have hends {e : Edge K × K}
      (he : e ∈ (p.entries x.values).filter fun e => p.tolerance.above e.2 0) :
      e.1.name.u ∈ p.graph.vertices ∧ e.1.name.v ∈ p.graph.vertices := by
    obtain ⟨⟨e', j⟩, hmem, rfl⟩ := List.mem_map.mp (List.mem_of_mem_filter he)
    exact hg.edge_ends (hp ▸ List.fst_mem_of_mem_zipIdx hmem)
  have hone := above_one h0 hbinary
  rw [hnetwork] at hcut
  obtain ⟨hnodup, hmost⟩ := (forced_release (fun e he => hends he) hwv).most_inside hwv
    (fun e he => hends he) hone hflow h0 h1 hcut
  have hmost := hmost set hset hw
  have hle : p.inside point.values cut.nodes - Scalar.ofInt ((cut.nodes.length : Int) - 1) ≤
      p.tolerance.epsilon := hle
  rw [inside_eq hvalues, ← weight_above h1 hbinary, Scalar.ofInt_eq] at hle
  push_cast at hle
  rw [← weight_above h1 hbinary]
  -- both sides are whole numbers, so the tolerance makes no difference
  rw [weight_ones hone set] at hmost ⊢
  have hlt : ((((p.entries x.values).filter fun e => p.tolerance.above e.2 0).countP fun e =>
      e.1.name.u ∈ set ∧ e.1.name.v ∈ set : ℕ) : K) < set.card := by linarith
  rw [le_sub_iff_add_le]
  exact_mod_cast hlt

/-- No set of vertices holds as many edges of the answer as it has vertices. -/
theorem Settled.enclosed_lt [Backend K] (h : Settled p q m) (hg : p.graph.Valid)
    (hp : p.edges = p.graph.edges) (h0 : 0 ≤ p.tolerance.epsilon) (h1 : p.tolerance.epsilon < 1)
    (hflow : (Backend.flow : FlowFinder Site K).Exact) (hall : m.activeColumns = [])
    {set : Finset Node} (hset : set ⊆ p.graph.vertices.toFinset) (hne : set.Nonempty) :
    enclosed set (ends q.sink.added) < set.card := by
  obtain ⟨x, hx, ha⟩ := h.2.1
  have hle := h.sparse hg hp h0 h1 hflow hx (h.1.entries_binary hall ha) set hset hne
  rw [h.1.weight_eq hall ha] at hle
  have hlt : (enclosed set (ends q.sink.added) : K) < set.card := by linarith
  exact_mod_cast hlt

theorem Kept.row_met (h : Kept p q m) (hall : m.activeColumns = []) (ha : m.Admits x.values)
    {i : Nat} {kind : BoundKind} {lo hi : K} {js : List Nat} {r : Row K}
    (hrow : p.model.rows[i]? = some (cover kind lo hi js)) (hjs : ∀ j ∈ js, j < p.edges.length)
    (hr : m.rows[i]? = some r) (hk : r.relaxed = false) :
    (Bound.mk kind lo hi).Admits (js.countP fun j => m.fixedAt j = some 1 : K) := by
  have hmet := h.ledger.grown.met ha hrow hr hk
  rw [← h.ledger.sum_columns ha hall fun j hj => h.length_eq ▸ hjs j hj]
  simpa [cover, Function.comp_def] using hmet

theorem Kept.first_kept (h : Kept p q m) : ∃ r, m.rows[0]? = some r ∧ r.relaxed = false := by
  obtain ⟨r, hr, -, -⟩ := h.ledger.grown.rows 0 p.sizeRow rfl
  refine ⟨r, hr, ?_⟩
  by_contra hk
  obtain ⟨v, hv, -⟩ := h.relaxed 0 r hr (by simpa using hk)
  cases hv

theorem Kept.length_ends (h : Kept p q m) (hall : m.activeColumns = []) (ha : m.Admits x.values) :
    (ends q.sink.added).length + 1 = p.graph.vertices.length := by
  obtain ⟨r, hr, hk⟩ := h.first_kept
  have hmet := h.row_met hall ha (show p.model.rows[0]? = some p.sizeRow from rfl) (by simp) hr hk
  have hcount := h.ledger.countP_ends fun _ => true
  rw [Model.positions_map, Model.positions_true, List.countP_true] at hcount
  have hmet : (((List.range p.edges.length).countP fun j => m.fixedAt j = some 1 : ℕ) : K) =
      Scalar.ofInt ((p.graph.vertices.length : ℤ) - 1) := hmet
  rw [← hcount, Scalar.ofInt_eq] at hmet
  have hmet : ((ends q.sink.added).length : ℤ) = p.graph.vertices.length - 1 := by exact_mod_cast hmet
  omega

theorem Kept.incident_le (h : Kept p q m) (hall : m.activeColumns = []) (ha : m.Admits x.values)
    (hv : v ∈ p.graph.vertices) {b : ℤ} (hb : p.bound? v = some b) :
    (((ends q.sink.added).countP fun e => e.1 = v || e.2 = v : ℕ) : ℤ) ≤ b + 1 := by
  have hmem : v ∈ p.boundedVertices := List.mem_filter.mpr ⟨hv, by simp [hb]⟩
  obtain ⟨k, hk⟩ := List.mem_iff_getElem?.mp hmem
  have hvertex : p.rowVertex (k + 1) = some v := hk
  have hrow := rowVertex_eq_some hvertex
  obtain ⟨r, hr, -, -⟩ := h.ledger.grown.rows (k + 1) _ hrow
  rw [← h.countP_incident]
  cases hrel : r.relaxed with
  | true =>
    obtain ⟨w, hw, hle⟩ := h.relaxed (k + 1) r hr hrel
    obtain rfl := Option.some.inj (hvertex.symm.trans hw)
    rw [hb, Option.getD_some] at hle
    have htaken : (p.incident v).countP (fun j => m.fixedAt j = some 1) ≤ p.kept m v := by
      refine List.countP_mono_left fun j _ hj => ?_
      simp only [decide_eq_true_eq] at hj
      simp [hj]
    omega
  | false =>
    have hlt : ∀ j ∈ p.incident v, j < p.edges.length := by
      intro j hj
      obtain ⟨e, he, -⟩ := Model.mem_positions.mp hj
      exact (List.getElem?_eq_some_iff.mp he).1
    have hmet := h.row_met hall ha hrow hlt hr hrel
    have hmet : (((p.incident v).countP fun j => m.fixedAt j = some 1 : ℕ) : K) ≤
        Scalar.ofInt ((p.bound? v).getD 0) := hmet
    rw [hb, Option.getD_some, Scalar.ofInt_eq] at hmet
    have hmet : (((p.incident v).countP fun j => m.fixedAt j = some 1 : ℕ) : ℤ) ≤ b := by
      exact_mod_cast hmet
    omega

end Last

/-- The edges of every answer form a spanning tree whose degrees exceed no bound by more than one,
however many rows a pass may relax. -/
theorem answer_spans_within_bounds [Backend K] [Dice S K] {ε : K} {g : Graph K}
    {bounds : List (Node × Int)} {costName : String} {entries : List Choice} {strategy : Strategy}
    {dice : S} (hg : g.Valid)
    (hmake : make ε g bounds costName entries strategy dice = .ok p) (hε : ε < 1)
    (limit : Nat → Bool) (hsolver : (Backend.solver : Solver K).Sound)
    (hflow : (Backend.flow : FlowFinder Site K).Exact) {out : Outcome K}
    {t : Run (BoundedTree K S) K}
    (h : Returns (Engine.solveProblem { policies with limit }) { problem := p } out t)
    (ho : out.status = .optimal) :
    t.problem.sink.entries = entries ++ t.problem.sink.added ∧
    (∀ c ∈ t.problem.sink.added, ∃ e ∈ g.edges, .edge e.name = c) ∧
    t.problem.sink.added.Nodup ∧ t.problem.sink.added.length + 1 = g.vertices.length ∧
    Connected g.vertices (ends t.problem.sink.added) ∧ Acyclic (ends t.problem.sink.added) ∧
    ∀ v ∈ g.vertices, ∀ b, p.bound? v = some b → degree (ends t.problem.sink.added) v ≤ b + 1 := by
  obtain ⟨hgraph, hedges, -, htol, h0, hsink, hcommitted⟩ := make_eq_ok hmake
  obtain ⟨s, u, hc, hi, hrun⟩ := Engine.returns_solveProblem h
  simp only [Roundable.check, returns_bind, Action.returns_problem, returns_pure] at hc
  obtain ⟨_, _, ⟨rfl, rfl⟩, -, rfl⟩ := hc
  simp only [policies, build, returns_bind, Action.returns_problem, Action.returns_setModel] at hi
  obtain ⟨_, _, ⟨rfl, rfl⟩, rfl⟩ := hi
  obtain ⟨s, v, hsettled, hall, hset, hpv, -⟩ := Engine.run_keeps (policies_keeps p limit hsolver)
    rfl rfl hrun ho (kept_model hsink hcommitted)
  obtain ⟨-, rfl⟩ := returns_pure.mp hset
  rw [hpv]
  have hk := hsettled.1
  obtain ⟨x, hx, ha⟩ := hsettled.2.1
  have hedge {c : Choice} (hc : c ∈ s.problem.sink.added) : ∃ e ∈ g.edges, .edge e.name = c := by
    obtain ⟨e, he, rfl⟩ := hk.ledger.exists_name hc
    obtain ⟨e', he', rfl⟩ := List.mem_map.mp he
    exact ⟨e', hedges ▸ he', rfl⟩
  have hends : ∀ e ∈ ends s.problem.sink.added, e.1 ∈ g.vertices ∧ e.2 ∈ g.vertices := by
    intro e he
    obtain ⟨name, hname, rfl⟩ := hk.ledger.mem_names he
    obtain ⟨e', he', rfl⟩ := List.mem_map.mp hname
    exact hg.edge_ends (hedges ▸ he')
  have hsparse {set : Finset Node} (hset : set ⊆ g.vertices.toFinset) (hne : set.Nonempty) :
      enclosed set (ends s.problem.sink.added) < set.card := by
    subst hgraph htol
    exact hsettled.enclosed_lt hg hedges h0 hε hflow hall hset hne
  have hlength : (ends s.problem.sink.added).length + 1 = g.vertices.length := by
    rw [← hgraph]
    exact hk.length_ends hall ha
  have hconnected : Connected g.vertices (ends s.problem.sink.added) :=
    connected_of_sparse hg.nodup hends hlength fun set => hsparse
  refine ⟨?_, fun c hc => hedge hc, hk.ledger.nodup_added (hedges ▸ hg.nodup_names), ?_, hconnected,
    hconnected.acyclic hg.nodup hlength, ?_⟩
  · rw [hk.ledger.entries_eq, hsink]
    rfl
  · rw [← hk.ledger.length_ends]
    exact hlength
  · intro v hv b hb
    have hloop := hsparse (Finset.singleton_subset_iff.mpr (List.mem_toFinset.mpr hv))
      (Finset.singleton_nonempty v)
    have hle := hk.incident_le hall ha (hgraph ▸ hv) hb
    have hzero : ((ends s.problem.sink.added).countP fun e => e.1 = v && e.2 = v) = 0 := by
      simpa [enclosed] using hloop
    rw [degree_eq, hzero]
    simpa using hle

def fan : Graph ℚ where
  vertices := [.number 1, .number 2, .number 3, .number 4]
  links := [
    { tail := .number 1, head := .number 2, key := 0, attrs := [("cost", 1)] },
    { tail := .number 1, head := .number 3, key := 0, attrs := [("cost", 1)] },
    { tail := .number 1, head := .number 4, key := 0, attrs := [("cost", 1)] },
    { tail := .number 2, head := .number 3, key := 0, attrs := [("cost", 3)] },
    { tail := .number 3, head := .number 4, key := 0, attrs := [("cost", 3)] }]

theorem fan_valid : fan.Valid :=
  ⟨by decide, by decide, by decide⟩

@[reducible] noncomputable def fanBackend : Backend ℚ :=
  .trying [[1, 1, 1, 0, 0], [2 / 3, 2 / 3, 2 / 3, 1 / 2, 1 / 2]]
    (FlowFinder.certified Augment.finder) 5

theorem fan_answer :
    let _ := fanBackend
    let _ : Dice Unit ℚ := Dice.zero
    ∃ (p : BoundedTree ℚ Unit) (out : Outcome ℚ) (t : Run (BoundedTree ℚ Unit) ℚ),
      make (1 / 10) fan [(.number 1, 2)] "cost" [] .first () = .ok p ∧
      Returns (Engine.solveProblem { policies with limit := fun n => 1 ≤ n }) { problem := p } out
        t ∧ out.status = .optimal ∧
      Connected fan.vertices (ends t.problem.sink.added) ∧ Acyclic (ends t.problem.sink.added) ∧
      degree (ends t.problem.sink.added) (.number 1) ≤ 3 := by
  let _ := fanBackend
  let _ : Dice Unit ℚ := Dice.zero
  obtain ⟨p, hp, hrun⟩ := exists_ok (make (1 / 10) fan [(.number 1, 2)] "cost" [] .first ())
    (fun p => solves { policies with limit := fun n => 1 ≤ n } p && p.bound? (.number 1) = some 2)
    (by decide +kernel)
  obtain ⟨hrun, hb⟩ := Bool.and_eq_true_iff.mp hrun
  obtain ⟨out, t, h, ho⟩ := exists_answer hrun
  obtain ⟨-, -, -, -, hconnected, hacyclic, hdegree⟩ := answer_spans_within_bounds fan_valid hp
    (by norm_num) _ (Solver.trying_sound _) (FlowFinder.certified_exact _) h ho
  have hle := hdegree (.number 1) (by decide) 2 (of_decide_eq_true hb)
  exact ⟨p, out, t, hp, h, ho, hconnected, hacyclic, by omega⟩

end LPRounding.BoundedTree
