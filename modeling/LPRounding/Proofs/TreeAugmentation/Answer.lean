import LPRounding.Proofs.Run.Invariant
import LPRounding.Proofs.Run.Rules
import LPRounding.Proofs.Run.Ledger
import LPRounding.Proofs.LP.Trying
import LPRounding.Proofs.TreeAugmentation.Tree

/-!
Tree augmentation: the links of every answer bypass every tree edge. A row goes only when a link
that was taken covers its edge, and the rows that are left are met by the links taken.
-/

namespace LPRounding.TreeAugmentation

set_option linter.unusedSectionVars false

variable {K : Type} [Field K] [LinearOrder K] [IsStrictOrderedRing K] [FloorRing K]
  {p q : TreeAugmentation K} {m : Model K}

/-- What holds of a problem `q` and its model throughout a run that started with `p`. -/
structure Kept (p q : TreeAugmentation K) (m : Model K) : Prop where
  links : q.links = p.links
  tree : q.tree = p.tree
  ledger : Ledger (p.links.map TreeLink.name) p.sink.entries p.model m q.sink
  chosen : ∀ e ∈ q.chosen, .edge e ∈ q.sink.added
  relaxed : ∀ (i : Nat) f r, p.tree[i]? = some f → m.rows[i]? = some r → r.relaxed = true →
    ∃ l ∈ p.links, .edge l.name ∈ q.sink.added ∧ covers f l = true

theorem kept_model {entries : List Choice} (hs : p.sink = .ofList entries)
    (hc : p.chosen = []) : Kept p p p.model := by
  refine ⟨rfl, rfl, ?_, ?_, ?_⟩
  · rw [hs]
    exact .ofList (by simp [model, column])
  · simp [hc]
  · intro i f r hf hr hk
    obtain rfl : p.coverRow f = r := by simpa [model, hf] using hr
    cases hk

theorem Kept.solve {solver : Solver K} (hsolver : solver.Sound) {m' : Model K} (h : Kept p q m)
    (hs : Returns (Model.solve solver) m .optimal m') : Kept p q m' ∧ m'.Solved := by
  refine ⟨⟨h.links, h.tree, h.ledger.solve hs, h.chosen, ?_⟩, Model.solved_of_solve hsolver hs⟩
  obtain ⟨s, rfl, -⟩ := Model.returns_solve hs
  exact h.relaxed

theorem Kept.drop {m' : Model K} {j : Nat} (h : Kept p q m)
    (hf : Returns (Model.fixColumn j 0) m () m') : Kept p q m' := by
  refine ⟨h.links, h.tree, h.ledger.drop hf, h.chosen, ?_⟩
  obtain ⟨c, -, -, rfl⟩ := Model.returns_fixColumn.mp hf
  exact h.relaxed

theorem returns_commit {s t : Run (TreeAugmentation K) K} {j : Nat}
    (h : Returns (commit j) s () t) :
    ∃ l, s.problem.links[j]? = some l ∧ t = { s with problem := { s.problem with
      sink := s.problem.sink.push (.edge l.name)
      chosen := s.problem.chosen ++ [l.name]
      solutionCost := s.problem.solutionCost + l.cost } } := by
  simp only [commit, returns_bind, Action.returns_problem] at h
  obtain ⟨_, _, ⟨rfl, rfl⟩, h⟩ := h
  split at h
  · simp at h
  · next l hl => exact ⟨l, hl, (returns_modify.mp h).symm⟩

theorem Kept.take {s t : Run (TreeAugmentation K) K} {j : Nat} {m' : Model K}
    (h : Kept p s.problem s.lp) (hc : Returns (commit j) s () t)
    (hf : Returns (Model.fixColumn j 1) t.lp () m') : Kept p t.problem m' := by
  obtain ⟨l, hl, rfl⟩ := returns_commit hc
  have hname : (p.links.map TreeLink.name)[j]? = some l.name := by
    rw [List.getElem?_map, ← h.links, hl]
    rfl
  have hadded := Sink.added_push h.ledger.kept_le (.edge l.name)
  have hgrow {c : Choice} (hm : c ∈ s.problem.sink.added) :
      c ∈ (s.problem.sink.push (.edge l.name)).added := by
    rw [hadded]
    exact List.mem_append_left _ hm
  have hledger := h.ledger.take hname hf
  obtain ⟨c, -, -, rfl⟩ := Model.returns_fixColumn.mp hf
  refine ⟨h.links, h.tree, hledger, ?_, ?_⟩
  · intro e he
    rcases List.mem_append.mp he with he | he
    · exact hgrow (h.chosen e he)
    · obtain rfl := List.mem_singleton.mp he
      rw [hadded]
      exact List.mem_append_right _ (List.mem_singleton_self _)
  · intro i f r hi hr hk
    obtain ⟨l', hl', hm, hcov⟩ := h.relaxed i f r hi hr hk
    exact ⟨l', hl', hgrow hm, hcov⟩

theorem Kept.relax {m' : Model K} {i : Nat} (h : Kept p q m) (hc : q.isCovered i = true)
    (hf : Returns (Model.relaxRow i) m () m') : Kept p q m' := by
  refine ⟨h.links, h.tree, h.ledger.relax hf, h.chosen, ?_⟩
  obtain ⟨r, hr, -, rfl⟩ := Model.returns_relaxRow.mp hf
  intro k f r' hf hr' hk
  by_cases hik : i = k
  · subst hik
    simp only [isCovered, h.tree, hf, Option.any_some, List.any_eq_true, Bool.and_eq_true] at hc
    obtain ⟨l, hl, hch, hcov⟩ := hc
    exact ⟨l, h.links ▸ hl, h.chosen _ (by simpa [isChosen] using hch), hcov⟩
  · rw [List.getElem?_set_ne hik] at hr'
    exact h.relaxed k f r' hf hr' hk

theorem policies_keeps [Backend K] (p : TreeAugmentation K)
    (hsolver : (Backend.solver : Solver K).Sound) :
    Engine.Keeps (policies (K := K)) RoundRule.commitHalf.apply (Kept p) (Kept p)
      (fun q m => Kept p q m ∧ m.Solved) := by
  have solve {s t : Run (TreeAugmentation K) K} (h : Kept p s.problem s.lp)
      (hs : Returns Action.solveModel s .optimal t) :
      Kept p t.problem t.lp ∧ t.lp.Solved := by
    obtain ⟨hp, hm⟩ := Action.returns_solveModel hs
    exact hp ▸ h.solve hsolver hm
  have relaxes {s t : Run (TreeAugmentation K) K} {i : Nat} {b : Bool}
      (h : Returns ((policies (K := K)).relax i) s b t) : s = t ∧ s.problem.isCovered i = b := by
    simp only [policies, returns_bind, Action.returns_problem, returns_pure] at h
    obtain ⟨_, _, ⟨rfl, rfl⟩, hb, rfl⟩ := h
    exact ⟨rfl, hb⟩
  refine ⟨solve, solve, fun h => h.1, id, RoundRule.commits_commitHalf.skip,
    RoundRule.commits_commitHalf.fix (Kept p) Kept.drop Kept.take, ?_, ?_⟩
  · intro s t i h
    obtain ⟨rfl, -⟩ := relaxes h
    exact ⟨rfl, rfl⟩
  · rintro s t i m ⟨hk, hs⟩ hr hf
    obtain ⟨rfl, hc⟩ := relaxes hr
    refine ⟨hk.relax hc hf, ?_⟩
    obtain ⟨r, -, -, rfl⟩ := Model.returns_relaxRow.mp hf
    exact hs.relax _

/-- Once all columns have their constants, a link that was taken covers each tree edge. -/
theorem Kept.exists_cover (h : Kept p q m) (hs : m.Solved) (hall : m.activeColumns = []) {i : Nat}
    {f : Node × Node} (hi : p.tree[i]? = some f) :
    ∃ l ∈ p.links, .edge l.name ∈ q.sink.added ∧ covers f l = true := by
  obtain ⟨s, -, hx⟩ := hs
  have hrow : p.model.rows[i]? = some (p.coverRow f) := by simp [model, hi]
  obtain ⟨r, hr, -⟩ := h.ledger.grown.rows i _ hrow
  cases hk : r.relaxed with
  | true => exact h.relaxed i f r hi hr hk
  | false =>
    have hsum : 1 ≤ ((p.coveredBy f).map fun j => s.values.getD j 0).sum := by
      have := h.ledger.grown.met hx hrow hr hk
      simpa [coverRow, Bound.Admits, Function.comp_def] using this
    obtain ⟨j, hj, hne⟩ : ∃ j ∈ p.coveredBy f, s.values.getD j 0 ≠ 0 := by
      by_contra hn
      push Not at hn
      have hz : ((p.coveredBy f).map fun j => s.values.getD j 0).sum = 0 :=
        List.sum_eq_zero (by simpa using hn)
      rw [hz] at hsum
      exact absurd hsum (not_le.mpr zero_lt_one)
    obtain ⟨l, hl, hcov⟩ := Model.mem_positions.mp hj
    have hlt : j < m.columns.length := by
      rw [h.ledger.grown.length]
      simpa [model] using (List.getElem?_eq_some_iff.mp hl).1
    rcases h.ledger.value_eq hx hall hlt with ⟨-, hz⟩ | ⟨hone, -⟩
    · exact absurd hz hne
    · refine ⟨l, List.mem_of_getElem? hl, h.ledger.mem_added.mpr ⟨j, hone, ?_⟩, hcov⟩
      rw [List.getElem?_map, hl]
      rfl

/-- The links of every answer go over every tree edge, so the loss of a single edge or link does
not part the vertices. -/
theorem answer_bypasses_edges [Backend K] {ε : K} {g : Graph K} {mark costName : String}
    {entries : List Choice} (hg : g.Valid) (hmake : make ε g mark costName entries = .ok p)
    (hsolver : (Backend.solver : Solver K).Sound) {out : Outcome K}
    {t : Run (TreeAugmentation K) K}
    (h : Returns (Engine.solveProblem policies) { problem := p } out t)
    (ho : out.status = .optimal) :
    t.problem.sink.entries = entries ++ t.problem.sink.added ∧
    (∀ (i : Nat) f, p.tree[i]? = some f → ∃ l ∈ p.links, .edge l.name ∈ t.problem.sink.added ∧
      ∃ path, IsPath p.tree l.name.u l.name.v path ∧ Along f path) ∧
    ∀ i, Connected g.vertices ((p.tree ++ ends t.problem.sink.added).eraseIdx i) := by
  have hp := laid_of_make hg hmake
  obtain ⟨-, -, hvert, -, hsink, hchosen, -⟩ := make_eq_ok hmake
  obtain ⟨s, u, hc, hi, hrun⟩ := Engine.returns_solveProblem h
  simp only [Roundable.check, returns_bind, Action.returns_problem, returns_pure] at hc
  obtain ⟨_, _, ⟨rfl, rfl⟩, hissue, rfl⟩ := hc
  simp only [policies, build, returns_bind, Action.returns_problem] at hi
  obtain ⟨_, _, ⟨rfl, rfl⟩, hi⟩ := hi
  split at hi
  · simp at hi
  next hroutes =>
  obtain rfl := Action.returns_setModel.mp hi
  obtain ⟨s, v, ⟨hk, hs⟩, hall, hset, hpv, -⟩ :=
    Engine.run_keeps (policies_keeps p hsolver) rfl rfl hrun ho (kept_model hsink hchosen)
  obtain ⟨-, rfl⟩ := returns_pure.mp hset
  rw [hpv]
  have hcover (i : Nat) (f : Node × Node) (hf : p.tree[i]? = some f) :
      ∃ l ∈ p.links, .edge l.name ∈ s.problem.sink.added ∧
        ∃ path, IsPath p.tree l.name.u l.name.v path ∧ Along f path := by
    obtain ⟨l, hl, hm, hcov⟩ := hk.exists_cover hs hall hf
    have hr : l.route ≠ none := by
      intro hn
      have := List.find?_eq_none.mp hroutes l hl
      simp [hn] at this
    obtain ⟨path, hpath⟩ := Option.ne_none_iff_exists'.mp hr
    refine ⟨l, hl, hm, path, hp.routes l hl path hpath, ?_⟩
    rw [covers, hpath, Option.any_some] at hcov
    exact along_of_passes.mp hcov
  refine ⟨?_, hcover, ?_⟩
  · rw [hk.ledger.entries_eq, hsink]
    rfl
  · rw [← hvert]
    refine (hp.tree_of_issue hissue).2.eraseIdx_append fun i f hf => ?_
    obtain ⟨l, -, hm, path, hpath, halong⟩ := hcover i f hf
    exact ⟨_, mem_ends hm, path, hpath, halong⟩

def triangle : Graph ℚ where
  vertices := [.number 1, .number 2, .number 3]
  links := [
    { tail := .number 1, head := .number 2, key := 0, attrs := [("tree", 1)] },
    { tail := .number 2, head := .number 3, key := 0, attrs := [("tree", 1)] },
    { tail := .number 1, head := .number 3, key := 0, attrs := [("cost", 5)] }]

theorem triangle_valid : triangle.Valid :=
  ⟨by decide, by decide, by decide⟩

@[reducible] def triangleBackend : Backend ℚ :=
  .trying [[1]] (fun _ _ _ => { value := 0, net := fun _ _ => 0 }) 5

theorem triangle_answer :
    let _ := triangleBackend
    ∃ (p : TreeAugmentation ℚ) (out : Outcome ℚ) (t : Run (TreeAugmentation ℚ) ℚ),
      make (1 / 10) triangle "tree" "cost" [] = .ok p ∧
      Returns (Engine.solveProblem policies) { problem := p } out t ∧ out.status = .optimal ∧
      ∀ i, Connected triangle.vertices ((p.tree ++ ends t.problem.sink.added).eraseIdx i) := by
  let _ := triangleBackend
  obtain ⟨p, hp, hrun⟩ := exists_ok (make (1 / 10) triangle "tree" "cost" []) (solves policies)
    (by decide +kernel)
  obtain ⟨out, t, h, ho⟩ := exists_answer hrun
  have hs := answer_bypasses_edges triangle_valid hp (Solver.trying_sound _) h ho
  exact ⟨p, out, t, hp, h, ho, hs.2.2⟩

end LPRounding.TreeAugmentation
