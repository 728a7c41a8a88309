import LPRounding.Proofs.BoundedTree.Progress
import LPRounding.Proofs.Run.Novel

/-!
Spanning trees with degree bounds: every run ends. What is reported as violated is a set of vertices
that is not empty, and the point that was rejected violates the row of that very set, whatever the
tolerance is. Only degree rows are relaxed, so no set gets its row twice in a whole run, and there
are fewer rows to be found than there are sets.
-/

namespace LPRounding.BoundedTree

set_option linter.unusedSectionVars false

variable {K S : Type} [Field K] [LinearOrder K] [IsStrictOrderedRing K] [FloorRing K]
  {p q : BoundedTree K S} {m : Model K}

def setRow (p : BoundedTree K S) (set : Finset Node) : Row K :=
  cover .upper 0 ((set.card : K) - 1)
    (Model.positions (fun e => e.name.u ∈ set && e.name.v ∈ set) p.edges)

theorem mem_subtours {r : Row K} : r ∈ p.subtours ↔
    ∃ set ⊆ p.graph.vertices.toFinset, set.Nonempty ∧ r = p.setRow set := by
  constructor
  · rintro ⟨set, hne, hnodup, hsub, rfl⟩
    refine ⟨set.toFinset, fun v hv => ?_, List.toFinset_nonempty_iff set |>.mpr hne, ?_⟩
    · exact List.mem_toFinset.mpr (hsub (List.mem_toFinset.mp hv))
    · simp [setRow, within, List.toFinset_card_of_nodup hnodup]
  · rintro ⟨set, hsub, hne, rfl⟩
    refine ⟨set.toList, ?_, set.nodup_toList, fun v hv => ?_, ?_⟩
    · simpa using hne.ne_empty
    · exact List.mem_toFinset.mp (hsub (Finset.mem_toList.mp hv))
    · simp [setRow, within]

theorem subtours_eq (p : BoundedTree K S) :
    p.subtours = p.setRow '' ↑(p.graph.vertices.toFinset.powerset.erase ∅) := by
  ext r
  rw [mem_subtours]
  constructor
  · rintro ⟨set, hsub, hne, rfl⟩
    have hmem := Finset.mem_erase.mpr ⟨hne.ne_empty, Finset.mem_powerset.mpr hsub⟩
    exact ⟨set, Finset.mem_coe.mpr hmem, rfl⟩
  · rintro ⟨set, hset, rfl⟩
    obtain ⟨hne, hsub⟩ := Finset.mem_erase.mp (Finset.mem_coe.mp hset)
    exact ⟨set, Finset.mem_powerset.mp hsub, Finset.nonempty_iff_ne_empty.mpr hne, rfl⟩

theorem finite_subtours (p : BoundedTree K S) : p.subtours.Finite := by
  rw [subtours_eq]
  exact (Finset.finite_toSet _).image _

theorem ncard_subtours_le (p : BoundedTree K S) :
    p.subtours.ncard ≤ 2 ^ p.graph.vertices.length - 1 := by
  have hpow := Nat.pow_le_pow_right Nat.two_pos p.graph.vertices.toFinset_card_le
  calc p.subtours.ncard
      ≤ (p.graph.vertices.toFinset.powerset.erase ∅).card := by
        rw [subtours_eq, ← Set.ncard_coe_finset]
        exact Set.ncard_image_le (Finset.finite_toSet _)
    _ = 2 ^ p.graph.vertices.toFinset.card - 1 := by
        rw [Finset.card_erase_of_mem (Finset.empty_mem_powerset _), Finset.card_powerset]
    _ ≤ 2 ^ p.graph.vertices.length - 1 := Nat.sub_le_sub_right hpow 1

/-- Each row after the first ones is the row of a set of vertices, and no set has two of them. -/
structure Once (p : BoundedTree K S) (m : Model K) : Prop where
  sets : ∀ (i : Nat) r, p.model.rows.length ≤ i → m.rows[i]? = some r → r.relaxed = false ∧
    ∃ set ⊆ p.graph.vertices.toFinset, set.Nonempty ∧ r = p.setRow set
  once : ∀ (set : Finset Node) (i j : Nat), p.model.rows.length ≤ i → p.model.rows.length ≤ j →
    m.rows[i]? = some (p.setRow set) → m.rows[j]? = some (p.setRow set) → i = j
  length : m.rows.length ≤ p.model.rows.length + (2 ^ p.graph.vertices.length - 1)

theorem once_of_novel (h : m.Novel p.model.rows.length p.subtours) : p.Once m := by
  have hget (i : Nat) (hi : p.model.rows.length ≤ i) :
      m.rows[i]? = (m.rows.drop p.model.rows.length)[i - p.model.rows.length]? := by
    rw [List.getElem?_drop, Nat.add_sub_cancel' hi]
  refine ⟨fun i r hi hr => ?_, fun set i j hi hj hri hrj => ?_, ?_⟩
  · rw [hget i hi] at hr
    obtain ⟨hmem, hkept⟩ := h.rows r (List.mem_of_getElem? hr)
    exact ⟨hkept, mem_subtours.mp hmem⟩
  · rw [hget i hi] at hri
    rw [hget j hj] at hrj
    have hlt := (List.getElem?_eq_some_iff.mp hri).1
    have heq := (List.getElem?_inj hlt h.nodup).mp (hri.trans hrj.symm)
    omega
  · exact (h.length_le p.finite_subtours).trans (Nat.add_le_add_left p.ncard_subtours_le _)

/-- A set that holds too much for its size violates its own row. -/
theorem not_admits_of_finds [Backend K] {x : Solution K} (hx : m.solution = some x)
    {v : Violation K Node} (h : Oracle.Finds checker p m v) (hpos : 0 < v.magnitude) :
    ¬ (p.subtourRow v).bound.Admits (weigh (p.subtourRow v).coefs x.values) := by
  obtain ⟨point, cs, hprep, c, -, hv⟩ := h
  obtain ⟨-, hvalues, -⟩ := prepare_eq_ok hx hprep
  obtain ⟨cut, -, hv⟩ := ok_bind_iff.mp hv
  obtain rfl := Except.ok.inj hv
  have hpos : 0 < p.inside point.values cut.nodes - Scalar.ofInt ((cut.nodes.length : Int) - 1) :=
    hpos
  rw [inside_eq hvalues, ← weigh_within] at hpos
  exact not_le.mpr (sub_pos.mp hpos)

theorem cuts [Backend K] [Dice S K] (hflow : (Backend.flow : FlowFinder Site K).Sound) :
    Oracle.Cuts (S := S) home checker tolerance subtours Sane where
  toGenerates := generates hflow
  kept _ _ := rfl
  violated hq hx h := not_admits_of_finds hx h.1 (hq.epsilon.trans_lt h.2)

theorem Sane.exists_measure [Backend K] (h : p.Sane) {entries : List (Edge K × K)}
    (hentries : ∀ e ∈ entries, e.1 ∈ p.edges) {values : List K} {v : Node}
    (hv : v ∈ p.graph.vertices) : ∃ viol, p.measure ⟨values, p.auxiliary entries⟩ v = .ok viol := by
  have hforced := forced_release (fun e he => h.graph.edge_ends (h.edges ▸ hentries e he)) hv
  obtain ⟨cut, hcut⟩ := FlowFinder.exists_siteCut Backend.flow hforced.valid
    ((hforced.mem _).mpr (.inl rfl)) ((hforced.mem _).mpr (.inr (.inl rfl))) (by simp)
    hforced.bounded_sink p.tolerance.epsilon
  exact ⟨_, ok_bind_iff.mpr ⟨cut, hcut, rfl⟩⟩

theorem measurable [Backend K] [Dice S K] (hp : p.Sane) :
    Oracle.Measurable checker (Kept p) := by
  rintro q m hk ⟨x, hx, hadm⟩
  have hq := (hk.sane hp).1
  have hedges : q.edges = p.edges := by
    obtain ⟨sink, committed, oracle, rfl⟩ := hk.same
    rfl
  obtain ⟨values, hvalues⟩ := exists_mapM (fun e : Edge K × Nat => m.columnValue e.2)
    q.edges.zipIdx fun e he => by
      have hj := List.snd_lt_of_mem_zipIdx he
      rw [hedges, add_zero, hk.length_eq] at hj
      exact ⟨_, Model.columnValue_eq hx hadm.length hj⟩
  refine ⟨_, _, ok_bind_iff.mpr ⟨values, hvalues, rfl⟩, fun v hv => hq.exists_measure ?_ hv⟩
  exact fun e he => (List.of_mem_zip (List.mem_of_mem_filter he)).1

section Runs

variable [Backend K] [Dice S K] {entries : List Choice} {limit : Nat → Bool}
  {stage : Engine.Stage K} {t : Run (BoundedTree K S) K}

/-- What the solver and the flows must be like, and an allowance of rounds that is enough. -/
structure Affords (p : BoundedTree K S) : Prop where
  solver : (Backend.solver : Solver K).Sound
  answering : (Backend.solver : Solver K).Answering
  flow : (Backend.flow : FlowFinder Site K).Sound
  passes : 2 ^ p.graph.vertices.length ≤ Backend.passes K

theorem Affords.generating_ends (h : p.Affords) (hp : p.Sane) (hk : Kept p t.problem t.lp)
    (hl : t.lp.loaded = true) {n : Nat} (hnovel : t.lp.Novel n p.subtours) :
    Ends SolveRule.generating.apply t (fun _ u => u.lp.Novel n p.subtours) fun _ => False := by
  have hfresh : Oracle.Fresh subtours Sane (Kept p) p.subtours n t :=
    ⟨(hk.sane hp).1, (hk.sane hp).2, hk, hl, hnovel⟩
  refine hfresh.generating_ends (cuts h.flow) (search_keeps p h.solver) (measurable hp) h.answering
    p.finite_subtours ?_
  have hpos := Nat.two_pow_pos p.graph.vertices.length
  have hle := p.ncard_subtours_le
  have := h.passes
  omega

theorem ready_of_reached (hsolver : (Backend.solver : Solver K).Sound)
    (hsink : p.sink = .ofList entries) (hcommitted : p.committed = [])
    (h : Engine.Reached (limited limit) (limited limit).ask p.start stage t) :
    Engine.Ready stage t :=
  Engine.Reached.ready ((limited_committing limit).restrained tidy)
    (fun _ _ hu => (settled_of_solved hsolver hsink hcommitted hu).2.1.valued) rfl h

theorem upheld_of_reached (hsolver : (Backend.solver : Solver K).Sound)
    (hsink : p.sink = .ofList entries) (hcommitted : p.committed = [])
    (h : Engine.Reached (limited limit) (limited limit).ask p.start stage t) :
    Engine.Upheld (Kept p) (Kept p) (Settled p) stage t :=
  (policies_keeps p limit hsolver).reached rfl (kept_model hsink hcommitted) h

theorem Kept.rowVertex_eq (h : Kept p q m) (i : Nat) : q.rowVertex i = p.rowVertex i := by
  obtain ⟨sink, committed, oracle, rfl⟩ := h.same
  rfl

/-- All rows that a run has added are different, as only degree rows are relaxed. -/
theorem Affords.novel (h : p.Affords) (hp : p.Sane) (hsink : p.sink = .ofList entries)
    (hcommitted : p.committed = [])
    (hreach : Engine.Reached (limited limit) (limited limit).ask p.start stage t) :
    t.lp.Novel p.model.rows.length p.subtours := by
  refine hreach.novel ((limited_committing limit).restrained tidy) (fun {a} _ _ _ hwalk hstep hs => ?_)
    (fun hwalk hb => ?_) (.start _ _)
  · have hk := (policies_keeps p limit h.solver).before_solve rfl (kept_model hsink hcommitted)
      hwalk hstep
    have hl := (ready_of_reached h.solver hsink hcommitted hwalk).1
    obtain ⟨u, v, hu, hv, ht⟩ := hstep.calls rfl rfl
    rw [← hu.1, ← hu.2] at hk
    rw [← hu.2] at hl hs
    rw [ht.2]
    exact hv.ends.mp (h.generating_ends hp hk hl hs)
  · have hk := (upheld_of_reached h.solver hsink hcommitted hwalk).1
    obtain ⟨-, hiff⟩ := returns_relaxable hb
    obtain ⟨v, d, hv, -⟩ := hiff.mp rfl
    rw [hk.rowVertex_eq] at hv
    exact (List.getElem?_eq_some_iff.mp (rowVertex_eq_some hv)).1

theorem Affords.answered (h : p.Affords) (hp : p.Sane) (hsink : p.sink = .ofList entries)
    (hcommitted : p.committed = [])
    (hreach : Engine.Reached (limited limit) (limited limit).ask p.start stage t) :
    Engine.Answered (limited limit) stage t := by
  have hrestrained := (limited_committing (K := K) (S := S) limit).restrained tidy
  have hplaced := Engine.Reached.placed hrestrained hreach
  have hnovel := h.novel hp hsink hcommitted hreach
  obtain ⟨hl, hv⟩ := ready_of_reached h.solver hsink hcommitted hreach
  have hup := upheld_of_reached h.solver hsink hcommitted hreach
  cases stage with
  | begun =>
    obtain ⟨st, u, hu, -⟩ := (h.generating_ends hp hup hl hnovel).exists_returns
    exact ⟨st, u, hu⟩
  | solved first st =>
    cases st with
    | optimal =>
      obtain ⟨x, hx, -⟩ := hv rfl
      exact ⟨hx ▸ rfl, _, t, rfl, fun _ => ⟨t, rfl⟩⟩
    | infeasible | unbounded => trivial
  | rounding n columns r =>
    cases columns with
    | nil => trivial
    | cons j rest =>
      have hj := (Model.mem_activeColumns_iff.mp (hplaced.2.2 j List.mem_cons_self)).1
      obtain ⟨x, hx, hlen⟩ := hv
      have hedge : j < t.problem.edges.length := by
        obtain ⟨sink, committed, oracle, hq⟩ := hup.1.same
        rw [hq]
        exact hup.1.length_eq.symm ▸ hj
      have hends : Ends (RoundRule.commitOne.apply j) t (fun _ _ => True) fun _ => False := by
        refine RoundRule.commitOne_ends (Model.columnValue_eq hx hlen hj) (fun _ => trivial) ?_
        simp only [Roundable.commit, commit, ends_bind, Action.ends_problem,
          List.getElem?_eq_getElem hedge, ends_modify]
      obtain ⟨v, u, hu, -⟩ := hends.exists_returns
      exact ⟨v, u, hu⟩
  | relaxing n rows l =>
    cases rows with
    | nil => trivial
    | cons i rest =>
      intro _
      obtain ⟨r, hr, -⟩ := Model.mem_activeRows.mp (hplaced.2.2 i List.mem_cons_self)
      have hends : Ends (relaxable i) t (fun _ _ => True) fun _ => False := by
        simp only [relaxable, ends_bind, Action.ends_problem]
        split
        · trivial
        · simp only [ends_bind, Action.ends_model,
            ends_lift_ok (Model.rowDegree_eq_ok.mpr ⟨r, hr, rfl⟩), ends_pure]
      obtain ⟨b, u, hu, -⟩ := hends.exists_returns
      exact ⟨b, u, hu⟩
  | passed n r l =>
    intro _
    -- the call starts after the note on the passes
    obtain ⟨st, u, hu, -⟩ := (h.generating_ends
      (t := { t with trace := t.trace ++ [.iterated n r l] }) hp hup hl hnovel).exists_returns
    exact ⟨st, u, hu⟩
  | ended out => trivial

theorem solveProblem_eq (hissue : p.issue = none) :
    Engine.solveProblem (limited limit) { problem := p } = Engine.run (limited limit) p.start := by
  have hcheck : Returns Engine.checkInput { problem := p } () { problem := p } := by
    refine returns_bind.mpr ⟨none, { problem := p }, ?_, rfl⟩
    exact returns_bind.mpr ⟨p, _, rfl, returns_pure.mpr ⟨hissue, rfl⟩⟩
  rw [Engine.solveProblem, hcheck.bind_apply]
  rfl

/-- Every run for a connected graph ends, whatever the bounds, the tolerance and the policy of the
search are, and however many rows a pass may relax: no set of vertices gets its row twice, all calls
return, and the run has an outcome or is stuck. The allowance of passes only has to be as large as
the sets of vertices, the columns and the first rows are many. -/
theorem tree_always_halts {ε : K} {g : Graph K} {bounds : List (Node × Int)} {costName : String}
    {strategy : Strategy} {dice : S} (hg : g.Valid)
    (hmake : make ε g bounds costName entries strategy dice = .ok p) (hne : g.vertices ≠ [])
    (hconnected : Connected g.vertices g.pairs) (limit : Nat → Bool)
    (hsolver : (Backend.solver : Solver K).Sound)
    (hanswering : (Backend.solver : Solver K).Answering)
    (hflow : (Backend.flow : FlowFinder Site K).Sound)
    (hpasses : p.model.pending + 2 ^ g.vertices.length ≤ Backend.passes K) :
    (∀ stage t, Engine.Reached (limited limit) (limited limit).ask p.start stage t →
      p.Once t.lp ∧ Engine.Answered (limited limit) stage t) ∧
    ((∃ out t, Returns (Engine.solveProblem (limited limit)) { problem := p } out t ∧
        (out.status = .optimal ∨ out.status = .infeasible)) ∨
      ∃ n t, Fails (Engine.solveProblem (limited limit)) { problem := p }
        (.stuck n t.lp.name t.lp.activeColumns.length t.lp.activeRows.length) t) := by
  obtain ⟨hgraph, -, -, -, -, hsink, hcommitted⟩ := make_eq_ok hmake
  have hp := sane_of_make hg hmake
  have hissue : p.issue = none := by
    have hends : ∀ e ∈ g.pairs, e.1 ∈ g.vertices ∧ e.2 ∈ g.vertices := by
      intro _ hmem
      obtain ⟨e, he, rfl⟩ := List.mem_map.mp hmem
      exact hg.edge_ends he
    simp [issue, hgraph, hne, isConnected_of_connected hends hg.nodup hne hconnected]
  rw [← hgraph] at hpasses
  have hpow := Nat.two_pow_pos p.graph.vertices.length
  have h : p.Affords := ⟨hsolver, hanswering, hflow, (Nat.le_add_left _ _).trans hpasses⟩
  have hreached {stage : Engine.Stage K} {t : Run (BoundedTree K S) K}
      (hr : Engine.Reached (limited limit) (limited limit).ask p.start stage t) :
      p.Once t.lp ∧ Engine.Answered (limited limit) stage t :=
    ⟨once_of_novel (h.novel hp hsink hcommitted hr), h.answered hp hsink hcommitted hr⟩
  refine ⟨fun stage t => hreached, ?_⟩
  obtain ⟨⟨hends, -⟩, -⟩ := Engine.run_ends_within (r := 2 ^ p.graph.vertices.length - 1)
    ((limited_committing limit).restrained tidy) (fun _ _ hr => (hreached hr).2)
    (fun _ _ hr => (hreached hr).1.length) (show p.model.pending + _ < _ by omega)
  rcases hends with ⟨out, t, hr, hstatus, -⟩ | ⟨k, t, hf, -⟩
  · exact .inl ⟨out, t, (solveProblem_eq hissue).trans hr, hstatus⟩
  · exact .inr ⟨_, t, (solveProblem_eq hissue).trans hf⟩

end Runs

@[reducible] noncomputable def pendantBackend : Backend ℚ :=
  .trying [[1, 1, 1, 0], [1, 1, 0, 1]] (FlowFinder.certified Augment.finder) 30

theorem pendant_halts :
    let _ := pendantBackend
    let _ : Dice Unit ℚ := Dice.zero
    ∃ (p : BoundedTree ℚ Unit) (out : Outcome ℚ) (t : Run (BoundedTree ℚ Unit) ℚ),
      make (1 / 10) pendant [(.number 3, 2)] "cost" [] .first () = .ok p ∧
      Returns (Engine.solveProblem (limited fun _ => false)) { problem := p } out t ∧
      out.status = .optimal ∧ p.Once t.lp := by
  let _ := pendantBackend
  let _ : Dice Unit ℚ := Dice.zero
  obtain ⟨p, hp, htest⟩ := exists_ok (make (1 / 10) pendant [(.number 3, 2)] "cost" [] .first ())
    (fun p => solves (limited fun _ => false) p && p.issue.isNone &&
      decide (p.model.pending + 16 ≤ 30)) (by decide +kernel)
  simp only [Bool.and_eq_true, Option.isNone_iff_eq_none, decide_eq_true_eq] at htest
  obtain ⟨⟨hrun, hissue⟩, hpasses⟩ := htest
  obtain ⟨out, t, h, ho⟩ := exists_answer hrun
  obtain ⟨hreached, -⟩ := tree_always_halts pendant_valid hp (by decide)
    (connected_of_isConnected (by decide +kernel) (by decide +kernel)) (fun _ => false)
    (Solver.trying_sound _) (Solver.trying_answering _) (FlowFinder.certified_sound _) hpasses
  have hrun := (solveProblem_eq hissue).symm.trans h
  exact ⟨p, out, t, hp, h, ho, (hreached _ _ (Engine.reached_of_returns hrun)).1⟩

end LPRounding.BoundedTree
