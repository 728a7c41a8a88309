import LPRounding.Proofs.Graph.Sides
import LPRounding.Proofs.Run.Progress
import LPRounding.Proofs.TreeAugmentation.Answer

/-!
Tree augmentation: no run is stuck. Were every open column of a vertex strictly between zero and a
half, and no kept row covered by a link that was taken, then the tight rows would be nested cuts
that the open columns share out; of such cuts there are fewer than columns, and a vertex has as many.
-/

namespace LPRounding.TreeAugmentation

set_option linter.unusedSectionVars false

variable {K : Type} [Field K] [LinearOrder K] [IsStrictOrderedRing K] [FloorRing K]
  {p q : TreeAugmentation K} {m : Model K} {x : List K}

/-- Beside what the answer needs: the rows are those of the tree edges, and a link whose column is
fixed at one was taken. -/
structure Framed (p q : TreeAugmentation K) (m : Model K) : Prop extends Kept p q m where
  tolerance : q.tolerance = p.tolerance
  loaded : m.loaded = true
  rowCount : m.rows.length = p.tree.length
  committed : ∀ (j : Nat) l, p.links[j]? = some l → m.fixedAt j = some 1 → l.name ∈ q.chosen

theorem framed_model {entries : List Choice} (hs : p.sink = .ofList entries)
    (hc : p.chosen = []) : Framed p p p.model := by
  refine ⟨kept_model hs hc, rfl, rfl, by simp [model], ?_⟩
  intro j l hl hf
  simp [Model.fixedAt, model, hl, column] at hf

theorem Framed.solve {solver : Solver K} (hsolver : solver.Sound) {m' : Model K}
    (h : Framed p q m) (hs : Returns (Model.solve solver) m .optimal m') : Framed p q m' := by
  have hk := (h.toKept.solve hsolver hs).1
  obtain ⟨s, rfl, -⟩ := Model.returns_solve hs
  exact ⟨hk, h.tolerance, h.loaded, h.rowCount, h.committed⟩

theorem Framed.drop {m' : Model K} {j : Nat} (h : Framed p q m)
    (hf : Returns (Model.fixColumn j 0) m () m') : Framed p q m' := by
  have hk := h.toKept.drop hf
  obtain ⟨c, hc, -, rfl⟩ := Model.returns_fixColumn.mp hf
  refine ⟨hk, h.tolerance, h.loaded, h.rowCount, fun i l hl hone => ?_⟩
  rw [Model.fixedAt_set hc] at hone
  split at hone
  · simp at hone
  · exact h.committed i l hl hone

theorem Framed.take {s t : Run (TreeAugmentation K) K} {j : Nat} {m' : Model K}
    (h : Framed p s.problem s.lp) (hc : Returns (commit j) s () t)
    (hf : Returns (Model.fixColumn j 1) t.lp () m') : Framed p t.problem m' := by
  have hk := h.toKept.take hc hf
  obtain ⟨l, hl, rfl⟩ := returns_commit hc
  obtain ⟨c, hcol, -, rfl⟩ := Model.returns_fixColumn.mp hf
  refine ⟨hk, h.tolerance, h.loaded, h.rowCount, fun i l' hl' hone => ?_⟩
  rw [Model.fixedAt_set hcol] at hone
  split at hone
  · next hij =>
    subst hij
    rw [← h.links, hl] at hl'
    obtain rfl := Option.some.inj hl'
    exact List.mem_append_right _ (List.mem_singleton_self _)
  · exact List.mem_append_left _ (h.committed i l' hl' hone)

theorem Framed.relax {m' : Model K} {i : Nat} (h : Framed p q m) (hc : q.isCovered i = true)
    (hf : Returns (Model.relaxRow i) m () m') : Framed p q m' := by
  have hk := h.toKept.relax hc hf
  obtain ⟨r, -, -, rfl⟩ := Model.returns_relaxRow.mp hf
  exact ⟨hk, h.tolerance, h.loaded, by simpa using h.rowCount, h.committed⟩

def linkEnds (p : TreeAugmentation K) (j : Nat) : Node × Node :=
  match p.links[j]? with
  | some l => (l.name.u, l.name.v)
  | none => default

theorem linkEnds_eq {j : Nat} {l : TreeLink K} (hl : p.links[j]? = some l) :
    p.linkEnds j = (l.name.u, l.name.v) := by
  simp [linkEnds, hl]

/-- An instance that passed the check, all of whose links have a route. -/
structure Sized (p : TreeAugmentation K) (root : Node) : Prop extends Laid p where
  passed : p.issue = none
  routed : ∀ l ∈ p.links, l.route ≠ none
  linkEnds : ∀ l ∈ p.links, l.name.u ∈ p.vertices ∧ l.name.v ∈ p.vertices
  root : root ∈ p.vertices

variable {root : Node}

theorem Sized.mem_coveredBy (hp : Sized p root) {i j : Nat} {f : Node × Node}
    (hi : p.tree[i]? = some f) (hj : j < p.links.length) : j ∈ p.coveredBy f ↔
      Crosses (farSide p.vertices p.tree root i) (p.linkEnds j).1 (p.linkEnds j).2 := by
  have hl := List.getElem?_eq_getElem hj
  have hmem : p.links[j] ∈ p.links := List.getElem_mem hj
  rw [coveredBy, Model.mem_positions, linkEnds_eq hl]
  obtain ⟨hu, hv⟩ := hp.linkEnds _ hmem
  rw [(hp.tree_of_issue hp.passed).2.crosses_iff hp.root hu hv,
    ← hp.covers_iff hp.passed hmem (hp.routed _ hmem) hi]
  simp [hl]

noncomputable def carried (p : TreeAugmentation K) (root : Node) (E : Finset Nat) (d : Nat → K)
    (i : Nat) : K :=
  ∑ j ∈ E with Crosses (farSide p.vertices p.tree root i) (p.linkEnds j).1 (p.linkEnds j).2, d j

theorem Sized.weights_coverRow (hp : Sized p root) {i : Nat} {f : Node × Node}
    (hi : p.tree[i]? = some f) {E : Finset Nat} (hE : ∀ j ∈ E, j < p.links.length) {d : Nat → K}
    (hd : ∀ j ∈ p.coveredBy f, j ∉ E → d j = 0) :
    weights (p.coverRow f).coefs d = p.carried root E d i := by
  rw [coverRow, weights_ones (p.coveredBy f) (Model.nodup_positions _ _)]
  symm
  refine Finset.sum_subset_zero_on_sdiff (fun j hj => ?_) (fun j hj => ?_) fun _ _ => rfl
  · obtain ⟨hj, hc⟩ := Finset.mem_filter.mp hj
    exact List.mem_toFinset.mpr ((hp.mem_coveredBy hi (hE j hj)).mpr hc)
  · obtain ⟨hj, hno⟩ := Finset.mem_sdiff.mp hj
    have hj := List.mem_toFinset.mp hj
    refine hd j hj fun hjE => hno (Finset.mem_filter.mpr ⟨hjE, ?_⟩)
    exact (hp.mem_coveredBy hi (hE j hjE)).mp hj

theorem Framed.length_columns (h : Framed p q m) : m.columns.length = p.links.length := by
  rw [h.ledger.grown.length]
  simp [model]

theorem Framed.getD_nonneg (h : Framed p q m) (hx : m.Admits x) (j : Nat) : 0 ≤ x.getD j 0 := by
  refine h.ledger.good_getD (fun v => 0 ≤ v) le_rfl zero_le_one (fun c hc v hv => ?_) hx j
  obtain ⟨l, -, rfl⟩ := List.mem_map.mp hc
  exact hv

theorem Framed.value_eq_zero (h : Framed p q m) (hx : m.Admits x) {i j : Nat} {f : Node × Node}
    (hi : p.tree[i]? = some f) (hc : q.isCovered i = false) (hj : j ∈ p.coveredBy f)
    (hno : j ∉ m.activeColumns) : x.getD j 0 = 0 := by
  obtain ⟨l, hl, hcov⟩ := Model.mem_positions.mp hj
  have hlt : j < m.columns.length := by
    rw [h.length_columns]
    exact (List.getElem?_eq_some_iff.mp hl).1
  rcases h.ledger.closed_column hx hlt hno with ⟨-, hzero⟩ | ⟨hone, -⟩
  · exact hzero
  · have hmem : l ∈ q.links := h.links ▸ List.mem_of_getElem? hl
    have hchosen : q.isChosen l.name = true := by simpa [isChosen] using h.committed j l hl hone
    have : q.isCovered i = true := by
      simp only [isCovered, h.tree, hi, Option.any_some, List.any_eq_true, Bool.and_eq_true]
      exact ⟨l, hmem, hchosen, hcov⟩
    rw [hc] at this
    cases this

theorem Framed.eq_zero_of_still (h : Framed p q m) (hp : Sized p root)
    (hv : m.system.Vertex x) (hpos : ∀ j ∈ m.activeColumns, 0 < x.getD j 0)
    (hcovered : ∀ i ∈ m.activeRows, q.isCovered i = false) {d : Nat → K}
    (hd : ∀ j, j ∉ m.activeColumns → d j = 0)
    (hstill : ∀ i ∈ m.activeRows, i < p.tree.length →
      p.carried root m.activeColumns.toFinset (x.getD · 0) i = 1 →
        p.carried root m.activeColumns.toFinset d i = 0) : d = 0 := by
  have hx := Model.feasible_iff_admits.mp hv.feasible
  have hlt : ∀ j ∈ m.activeColumns.toFinset, j < p.links.length := fun j hj => by
    rw [← h.length_columns]
    exact (Model.mem_activeColumns_iff.mp (List.mem_toFinset.mp hj)).1
  refine h.ledger.eq_zero_of_vertex (b := { kind := .lower, lo := 0, hi := 0 })
    (by simp [model, column]) hv (fun j hj => ?_) hd fun r hr hk => ?_
  · simpa [Bound.Inside, Bound.floor?, Bound.ceiling?] using hpos j hj
  · obtain ⟨i, hi, rfl⟩ := List.getElem_of_mem hr
    have hit : i < p.tree.length := h.rowCount ▸ hi
    have hf := List.getElem?_eq_getElem hit
    have hactive : i ∈ m.activeRows :=
      Model.mem_activeRows.mpr ⟨_, List.getElem?_eq_getElem hi, hk⟩
    have hfirst : p.model.rows[i]? = some (p.coverRow p.tree[i]) := by simp [model, hf]
    obtain ⟨hb, hcoefs⟩ := h.ledger.grown.row hfirst (List.getElem?_eq_getElem hi)
    have hsum := hp.weights_coverRow (d := (x.getD · 0)) hf hlt fun j hj hno =>
      h.value_eq_zero hx hf (hcovered i hactive) hj fun hja => hno (List.mem_toFinset.mpr hja)
    have hmove := hp.weights_coverRow (d := d) hf hlt fun j _ hno =>
      hd j fun hja => hno (List.mem_toFinset.mpr hja)
    rw [hb, hcoefs, weigh_eq_weights, hsum, hmove]
    by_cases htight : p.carried root m.activeColumns.toFinset (x.getD · 0) i = 1
    · exact .inr (hstill i hactive hit htight)
    · left
      have hrow := h.ledger.grown.met hx hfirst (List.getElem?_eq_getElem hi) hk
      rw [weigh_eq_weights, hsum] at hrow
      have hge : 1 ≤ p.carried root m.activeColumns.toFinset (x.getD · 0) i := by
        simpa [coverRow, Bound.Admits] using hrow
      have hgt := hge.lt_of_ne' htight
      simpa [coverRow, Bound.Inside, Bound.floor?, Bound.ceiling?] using hgt

/-- At a vertex that leaves a column open some column can be rounded or some row relaxed. -/
theorem Framed.exists_move (h : Framed p q m) (hp : Sized p root)
    (hε : 0 < p.tolerance.epsilon) {s : Solution K} (hs : m.solution = some s)
    (hv : m.system.Vertex s.values) (ho : m.activeColumns ≠ []) :
    (∃ c ∈ m.activeColumns, ∃ v, m.columnValue c = .ok v ∧
      (v < p.tolerance.epsilon ∨ 1 / 2 - p.tolerance.epsilon ≤ v)) ∨
    ∃ row ∈ m.activeRows, q.isCovered row = true := by
  have hx := Model.feasible_iff_admits.mp hv.feasible
  by_contra hno
  rw [not_or] at hno
  obtain ⟨hcolumns, hrows⟩ := hno
  let E := m.activeColumns.toFinset
  have hmemE {j : Nat} : j ∈ E ↔ j ∈ m.activeColumns := List.mem_toFinset
  have hbetween : ∀ j ∈ E, 0 < s.values.getD j 0 ∧ s.values.getD j 0 < 1 / 2 :=
    fun j hj => Model.below_half_of_far hs hx.length hε hcolumns (hmemE.mp hj)
  have hcovered (i : Nat) (hi : i ∈ m.activeRows) : q.isCovered i = false := by
    by_contra hc
    exact hrows ⟨i, hi, by simpa using hc⟩
  -- the cuts at the rows without slack
  let cuts := (Finset.range p.tree.length).filter fun i =>
    i ∈ m.activeRows ∧ p.carried root E (s.values.getD · 0) i = 1
  have hlaminar : Laminar (farSide p.vertices p.tree root) cuts :=
    (hp.tree_of_issue hp.passed).2.laminar hp.root fun i hi =>
      Finset.mem_range.mp (Finset.mem_filter.mp hi).1
  have hsome : E.Nonempty := by
    obtain ⟨j, hj⟩ := List.exists_mem_of_ne_nil _ ho
    exact ⟨j, hmemE.mpr hj⟩
  obtain ⟨d, hne, hd, hz⟩ := exists_unnoticed (a := fun j => (p.linkEnds j).1)
    (b := fun j => (p.linkEnds j).2) hsome hbetween hlaminar
    fun i hi => ⟨1, (Finset.mem_filter.mp hi).2.2.trans Int.cast_one.symm⟩
  refine hne (h.eq_zero_of_still hp hv (fun j hj => (hbetween j (hmemE.mpr hj)).1) hcovered
    (fun j hj => hd j (hmemE.not.mpr hj)) fun i hi hit htight => hz i ?_)
  exact Finset.mem_filter.mpr ⟨Finset.mem_range.mpr hit, hi, htight⟩

theorem relax_returns [Backend K] {s t : Run (TreeAugmentation K) K} {i : Nat} {b : Bool}
    (h : Returns ((policies (K := K)).relax i) s b t) : s = t ∧ s.problem.isCovered i = b := by
  simp only [policies, returns_bind, Action.returns_problem, returns_pure] at h
  obtain ⟨_, _, ⟨rfl, rfl⟩, hb, rfl⟩ := h
  exact ⟨rfl, hb⟩

theorem framed_keeps [Backend K] (p : TreeAugmentation K)
    (hsolver : (Backend.solver : Solver K).Sound) :
    Engine.Keeps (policies (K := K)) RoundRule.commitHalf.apply (Framed p)
      (fun q m => Framed p q m ∧ m.Valued) (fun q m => Framed p q m ∧ m.Valued) := by
  have solve {s t : Run (TreeAugmentation K) K} (h : Framed p s.problem s.lp)
      (hs : Returns Action.solveModel s .optimal t) :
      Framed p t.problem t.lp ∧ t.lp.Valued := by
    obtain ⟨hp, hm⟩ := Action.returns_solveModel hs
    rw [hp]
    exact ⟨h.solve hsolver hm, (Model.solved_of_solve hsolver hm).valued⟩
  refine ⟨solve, solve, id, And.left, RoundRule.commits_commitHalf.skip,
    RoundRule.commits_commitHalf.fix (fun q m => Framed p q m ∧ m.Valued)
      (fun h hf => ⟨h.1.drop hf, h.2.fix hf⟩) ?_, ?_, ?_⟩
  · intro s t j m' h hc hf
    refine ⟨h.1.take hc hf, ?_⟩
    obtain ⟨l, -, rfl⟩ := returns_commit hc
    exact h.2.fix hf
  · intro s t i h
    obtain ⟨rfl, -⟩ := relax_returns h
    exact ⟨rfl, rfl⟩
  · intro s t i m h hr hf
    obtain ⟨rfl, hc⟩ := relax_returns hr
    exact ⟨h.1.relax hc hf, h.2.relax hf⟩

/-- How a policy may fail: the solver refuses a system or comes to no answer. -/
def Unanswered (e : Fault K) : Prop := (∃ part, e = .notFinite part) ∨ ∃ model, e = .undecided model

theorem policies_live [Backend K] (hp : Sized p root)
    (hsolver : (Backend.solver : Solver K).Extreme) (hε : 0 < p.tolerance.epsilon) :
    Engine.Live (policies (K := K)) RoundRule.commitHalf.apply (Framed p)
      (fun q m => Framed p q m ∧ m.Valued) (fun q m => Framed p q m ∧ m.Valued)
      (fun _ m => ∃ s, m.solution = some s ∧ m.system.Vertex s.values) (fun _ => true)
      Unanswered := by
  have solve {s : Run (TreeAugmentation K) K} (h : Framed p s.problem s.lp) :
      Ends Action.solveModel s (fun st t =>
        (st = .optimal → ∃ x, t.lp.solution = some x ∧ t.lp.system.Vertex x.values) ∧
        t.lp.toGo (fun _ => true) = s.lp.toGo (fun _ => true) ∧ t.iterations = s.iterations)
        Unanswered := by
    refine (Action.solveModel_ends h.loaded).mono (fun st t hr ht => ⟨?_, ht⟩) fun e he => ?_
    · rintro rfl
      exact Model.vertex_of_solve hsolver (Action.returns_solveModel hr).2
    · rcases he with ⟨part, -, rfl⟩ | ⟨-, rfl⟩
      · exact .inl ⟨part, rfl⟩
      · exact .inr ⟨_, rfl⟩
  refine ⟨solve, solve, ?_, ?_, ?_, rfl, ?_, ?_⟩
  · rintro s j ⟨h, x, hx, hlen⟩ hj
    have hlt := (Model.mem_activeColumns_iff.mp hj).1
    refine RoundRule.commitHalf_ends (Model.columnValue_eq hx hlen hlt) (fun _ => ⟨rfl, rfl⟩) ?_
    rw [h.length_columns, ← h.links] at hlt
    simp only [Roundable.commit, commit, ends_bind, Action.ends_problem,
      List.getElem?_eq_getElem hlt, ends_modify]
    exact ⟨rfl, rfl⟩
  · intro s i _ _
    exact ⟨⟨rfl, rfl⟩, fun _ => rfl⟩
  · intro s _ _
    exact ⟨rfl, rfl⟩
  · rintro q m ⟨-, x, hx, -⟩
    simp [hx]
  · rintro s ⟨h, -⟩ ⟨x, hx, hv⟩ ho hcolumns hrows
    have hε' : (Roundable.tolerance s.problem).epsilon = p.tolerance.epsilon :=
      congrArg Tolerance.epsilon h.tolerance
    rcases h.exists_move hp hε hx hv ho with ⟨c, hc, v, hval, hnear⟩ | ⟨row, hrow, hgo⟩
    · obtain ⟨u, w, ⟨hq, hm⟩, hr⟩ := hcolumns c hc
      have hx := Model.eq_getD_of_columnValue hx hval
      have h0 : 0 ≤ v := hx ▸ h.getD_nonneg (Model.feasible_iff_admits.mp hv.feasible) c
      have hfar := RoundRule.far_of_commitHalf_none hr (hm ▸ hval) h0
      rw [hq, hε'] at hfar
      exact hfar hnear
    · obtain ⟨u, w, ⟨hq, -⟩, hr⟩ := hrows row hrow
      obtain ⟨-, hb⟩ := relax_returns hr
      rw [hq, hgo] at hb
      cases hb

theorem sized_of_make {ε : K} {g : Graph K} {mark costName : String} {entries : List Choice}
    (hg : g.Valid) (hmake : make ε g mark costName entries = .ok p) (hi : p.issue = none)
    (hr : p.links.find? (fun l => l.route.isNone) = none) : ∃ root, Sized p root := by
  have hp := laid_of_make hg hmake
  obtain ⟨-, -, hv, -, -, -, hl⟩ := make_eq_ok hmake
  have hlen := (hp.tree_of_issue hi).1
  obtain ⟨root, hroot⟩ := List.exists_mem_of_length_pos (l := p.vertices) (by omega)
  refine ⟨root, hp, hi, fun l hlm hn => ?_, fun l hlm => ?_, hroot⟩
  · have := List.find?_eq_none.mp hr l hlm
    simp [hn] at this
  · rw [hl] at hlm
    obtain ⟨e, he, rfl⟩ := List.mem_map.mp hlm
    rw [hv]
    exact hg.edge_ends (List.mem_of_mem_filter he)

theorem returns_begin [Backend K] {u v : Run (TreeAugmentation K) K}
    (hc : Returns Roundable.check { problem := p } none u)
    (hi : Returns (policies (K := K)).init u () v) :
    p.links.find? (fun l => l.route.isNone) = none ∧ v = { problem := p, lp := p.model } := by
  simp only [Roundable.check, returns_bind, Action.returns_problem, returns_pure] at hc
  obtain ⟨_, _, ⟨rfl, rfl⟩, -, rfl⟩ := hc
  simp only [policies, build, returns_bind, Action.returns_problem] at hi
  obtain ⟨_, _, ⟨rfl, rfl⟩, hi⟩ := hi
  split at hi
  · simp at hi
  · next hroutes => exact ⟨hroutes, (Action.returns_setModel.mp hi).symm⟩

theorem toGo_model (p : TreeAugmentation K) :
    p.model.toGo (fun _ => true) ≤ p.links.length + p.tree.length := by
  have hrows : p.model.activeRows.length ≤ p.tree.length := by
    have := List.length_filter_le (fun e : Row K × Nat => !e.1.relaxed) p.model.rows.zipIdx
    simpa [Model.activeRows, Model.positions, model] using this
  refine Model.toGo_le.trans (Nat.add_le_add (by simp [model]) ?_)
  simpa using hrows

/-- No run is stuck: every vertex that leaves a column open has a column next to zero or at a half,
or a row that a taken link covers. A run that is allowed as many passes as there are links and tree
edges is not cut short either. -/
theorem augmentation_never_stuck [Backend K] {ε : K} {g : Graph K} {mark costName : String}
    {entries : List Choice} (hg : g.Valid) (hmake : make ε g mark costName entries = .ok p)
    (hissue : p.issue = none) (hε : 0 < ε) (hsolver : (Backend.solver : Solver K).Extreme) :
    (∀ t, Engine.Visits policies { problem := p } t → t.lp.activeColumns ≠ [] →
      (∃ c ∈ t.lp.activeColumns, ∃ v, t.lp.columnValue c = .ok v ∧
        (v < ε ∨ 1 / 2 - ε ≤ v)) ∨
      ∃ row ∈ t.lp.activeRows, t.problem.isCovered row = true) ∧
    ∀ e t, Engine.solveProblem policies { problem := p } = .error e t →
      (∀ iteration model columns rows, e ≠ .stuck iteration model columns rows) ∧
      (e = .unfinished → Backend.passes K ≤ p.links.length + p.tree.length) := by
  obtain ⟨-, htol, -, -, hsink, hchosen, -⟩ := make_eq_ok hmake
  have htol : p.tolerance.epsilon = ε := congrArg Tolerance.epsilon htol
  have hbase := framed_model hsink hchosen
  refine ⟨fun t ht ho => ?_, (ends_iff.mp (show Ends _ _ (fun _ _ => True) _ from ?_)).2⟩
  · obtain ⟨u, v, hc, hi⟩ := ht.exists_start
    obtain ⟨hroutes, -⟩ := returns_begin hc hi
    obtain ⟨root, hp⟩ := sized_of_make hg hmake hissue hroutes
    obtain ⟨⟨h, -⟩, x, hx, hv⟩ := ht.holds (framed_keeps p hsolver.sound)
      (policies_live hp hsolver (htol ▸ hε)) rfl rfl fun u v hc hi => by
        obtain ⟨-, rfl⟩ := returns_begin hc hi
        exact hbase
    rw [← htol]
    exact h.exists_move hp (htol ▸ hε) hx hv ho
  · simp only [Engine.solveProblem, Engine.checkInput, Roundable.check, policies, build, ends_bind,
      ends_pure, Action.ends_problem, hissue]
    split
    · exact ⟨by simp, by simp⟩
    · next hroutes =>
      obtain ⟨root, hp⟩ := sized_of_make hg hmake hissue hroutes
      have hrun := Engine.run_ends (framed_keeps p hsolver.sound)
        (policies_live hp hsolver (htol ▸ hε)) rfl rfl (s := { problem := p, lp := p.model }) hbase
      rw [Action.ends_setModel]
      refine Ends.mono hrun (fun _ _ _ _ => trivial) fun e he => ?_
      rcases he with (⟨part, rfl⟩ | ⟨model, rfl⟩) | ⟨rfl, hpasses⟩
      · exact ⟨by simp, by simp⟩
      · exact ⟨by simp, by simp⟩
      · exact ⟨by simp, fun _ => hpasses.trans (toGo_model p)⟩

theorem triangle_moves :
    let _ : Backend ℚ := { triangleBackend with solver := Solver.exact }
    ∃ p : TreeAugmentation ℚ, make (1 / 10) triangle "tree" "cost" [] = .ok p ∧
      p.issue = none ∧ ∀ e t, Engine.solveProblem policies { problem := p } = .error e t →
        ∀ iteration model columns rows, e ≠ .stuck iteration model columns rows := by
  let _ : Backend ℚ := { triangleBackend with solver := Solver.exact }
  obtain ⟨p, hp, hissue⟩ := exists_ok (make (1 / 10 : ℚ) triangle "tree" "cost" [])
    (fun p => p.issue.isNone) (by decide +kernel)
  have hissue : p.issue = none := by simpa using hissue
  have h := augmentation_never_stuck triangle_valid hp hissue (by norm_num)
    Solver.exact_exact.extreme
  exact ⟨p, hp, hissue, fun e t he => (h.2 e t he).1⟩

end LPRounding.TreeAugmentation
