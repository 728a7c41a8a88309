import LPRounding.Proofs.LP.Honest
import LPRounding.Proofs.LP.Selection
import LPRounding.Proofs.TreeAugmentation.Cost

/-!
Tree augmentation: an instance that passes its check is never lost. A graph without bridges has a
link over every tree edge. The columns that a pass drops are too small to make up a row among them,
so every kept row keeps a column that is not dropped; taking all of these is a point of every model
that is solved.
-/

namespace LPRounding.TreeAugmentation

set_option linter.unusedSectionVars false

variable {K : Type} [Field K] [LinearOrder K] [IsStrictOrderedRing K] [FloorRing K]
  {p q : TreeAugmentation K} {m m' : Model K}

theorem exists_parted {ε : K} {g : Graph K} {mark costName : String} {entries : List Choice}
    (hg : g.Valid) (hmake : make ε g mark costName entries = .ok p) (hissue : p.issue = none)
    {i : Nat} {f : Node × Node} (hi : p.tree[i]? = some f) :
    ∃ e ∈ g.edges, ¬ Joined (p.tree.eraseIdx i) e.name.u e.name.v ∧
      (e.name.u, e.name.v) ≠ f ∧ (e.name.v, e.name.u) ≠ f := by
  classical
  have hp := laid_of_make hg hmake
  obtain ⟨hlen, hcon⟩ := hp.tree_of_issue hissue
  obtain ⟨hkind, hpairs⟩ := simple_of_make hmake
  obtain ⟨-, -, hvertices, -, -, -, -⟩ := make_eq_ok hmake
  have hf := List.mem_of_getElem? hi
  obtain ⟨e, he, -, hends⟩ := (adjacent_tree hg hmake).mp (.inl hf : Adjacent p.tree f.1 f.2)
  obtain ⟨k, hk, rfl⟩ := List.getElem_of_mem he
  have haround : Joined (g.pairs.eraseIdx k) f.1 f.2 := by
    have htwo := twoEdgeConnected_of_issue hissue
    rw [hvertices, hpairs] at htwo
    obtain ⟨hu, hv⟩ := hp.ends f hf
    rw [hvertices] at hu hv
    refine connected_of_isTwoEdgeConnected (fun pair hpair => ?_) htwo
      (by simpa [Graph.pairs] using hk) f.1 hu f.2 hv
    obtain ⟨e, he, rfl⟩ := List.mem_map.mp hpair
    exact hg.edge_ends he
  let side (w : Node) : Bool := decide (Joined (p.tree.eraseIdx i) f.1 w)
  have hside : side f.1 ≠ side f.2 := fun h =>
    hcon.acyclic hp.nodup hlen i f.1 f.2 hi ((decide_eq_decide.mp h).mp .refl)
  obtain ⟨pair, hpair, hcross⟩ := haround.exists_crossing hside
  obtain ⟨k', hk', hne⟩ := mem_eraseIdx.mp hpair
  obtain ⟨hlt, rfl⟩ := List.getElem?_eq_some_iff.mp hk'
  have hlt : k' < g.edges.length := by simpa [Graph.pairs] using hlt
  have hmem : g.edges[k'] ∈ g.edges := List.getElem_mem hlt
  rw [show g.pairs[k'] = (g.edges[k'].name.u, g.edges[k'].name.v) by simp [Graph.pairs]] at hcross
  -- the edge that was taken away is the only one between the ends of the tree edge
  have hother (hsame : (g.edges[k'].name.u = g.edges[k].name.u ∧
      g.edges[k'].name.v = g.edges[k].name.v) ∨ (g.edges[k'].name.u = g.edges[k].name.v ∧
      g.edges[k'].name.v = g.edges[k].name.u)) : False := by
    have hname := hg.name_eq (by simp [hkind]) he hmem hsame
    have hlt' : k' < (g.edges.map Edge.name).length := by simpa using hlt
    have hlt : k < (g.edges.map Edge.name).length := by simpa using hk
    have hnames : (g.edges.map Edge.name)[k'] = (g.edges.map Edge.name)[k] := by
      simpa using hname.symm
    exact hne ((List.Nodup.getElem_inj_iff hg.nodup_names).mp hnames)
  refine ⟨_, hmem, fun hj => hcross (decide_eq_decide.mpr
    ⟨fun h => h.trans hj, fun h => h.trans hj.symm⟩), ?_, ?_⟩
  · rintro rfl
    rcases hends with ⟨h₁, h₂⟩ | ⟨h₁, h₂⟩
    · exact hother (.inl ⟨h₁.symm, h₂.symm⟩)
    · exact hother (.inr ⟨h₂.symm, h₁.symm⟩)
  · rintro rfl
    rcases hends with ⟨h₁, h₂⟩ | ⟨h₁, h₂⟩
    · exact hother (.inr ⟨h₂.symm, h₁.symm⟩)
    · exact hother (.inl ⟨h₁.symm, h₂.symm⟩)

/-- In an instance that passes its check some link covers each tree edge, as no other tree edge leads
from one of its sides to the other. -/
theorem exists_covering {ε : K} {g : Graph K} {mark costName : String} {entries : List Choice}
    (hg : g.Valid) (hmake : make ε g mark costName entries = .ok p) (hissue : p.issue = none)
    (hroutes : ∀ l ∈ p.links, l.route ≠ none) {i : Nat} {f : Node × Node}
    (hi : p.tree[i]? = some f) : ∃ l ∈ p.links, covers f l = true := by
  have hp := laid_of_make hg hmake
  obtain ⟨-, -, -, -, -, -, hlinks⟩ := make_eq_ok hmake
  obtain ⟨e, he, hparted, hne, hne'⟩ := exists_parted hg hmake hissue hi
  by_cases hmarked : isMarked mark e = true
  · have hadj := (adjacent_tree hg hmake).mpr ⟨e, he, hmarked, .inl ⟨rfl, rfl⟩⟩
    exact absurd (hadj.eraseIdx hi hne hne').joined hparted
  · obtain ⟨l, hl, hname⟩ : ∃ l ∈ p.links, l.name = e.name := by
      rw [hlinks]
      exact ⟨_, List.mem_map_of_mem (List.mem_filter.mpr ⟨he, by simpa using hmarked⟩), rfl⟩
    refine ⟨l, hl, (hp.covers_iff hissue hl (hroutes l hl) hi).mpr ?_⟩
    rw [hname]
    exact hparted

/-- Every kept row has a column that is not dropped. -/
def Coverable (m : Model K) : Prop :=
  ∀ r ∈ m.rows, r.relaxed = false → ∃ e ∈ r.coefs, m.fixedAt e.1 ≠ some 0

theorem coverable_model (h : ∀ f ∈ p.tree, ∃ l ∈ p.links, covers f l = true) :
    Coverable p.model := by
  intro r hr _
  obtain ⟨f, hf, rfl⟩ := List.mem_map.mp hr
  obtain ⟨l, hl, hcov⟩ := h f hf
  obtain ⟨j, hj⟩ := List.mem_iff_getElem?.mp hl
  refine ⟨(j, 1), List.mem_map.mpr ⟨j, Model.mem_positions.mpr ⟨l, hj, hcov⟩, rfl⟩, ?_⟩
  simp [Model.fixedAt, model, hj, column]

theorem Coverable.relax (h : Coverable m) {i : Nat} (hf : Returns (Model.relaxRow i) m () m') :
    Coverable m' := by
  obtain ⟨r₀, -, -, rfl⟩ := Model.returns_relaxRow.mp hf
  intro r hr hk
  rcases List.mem_or_eq_of_mem_set hr with hr | rfl
  · exact h r hr hk
  · cases hk

structure Posed (p q : TreeAugmentation K) (m : Model K) : Prop extends Framed p q m where
  direction : m.direction = .minimize
  coverable : Coverable m

theorem Framed.coefs_eq (h : Framed p q m) {r : Row K} (hr : r ∈ m.rows) :
    ∃ f ∈ p.tree, r.bound = { kind := .lower, lo := 1, hi := 0 } ∧
      r.coefs = (p.coveredBy f).map fun j => (j, 1) := by
  obtain ⟨i, hi, rfl⟩ := List.getElem_of_mem hr
  have hlt : i < p.tree.length := h.rowCount ▸ hi
  have hrow : p.model.rows[i]? = some (p.coverRow p.tree[i]) := by simp [model, hlt]
  obtain ⟨hb, hc⟩ := h.ledger.grown.row hrow (List.getElem?_eq_getElem hi)
  exact ⟨_, List.getElem_mem hlt, hb, hc⟩

theorem Posed.admits (h : Posed p q m) : m.Admits (m.columns.map fun c => c.fixed.getD 1) := by
  have hnonneg (j : Nat) : 0 ≤ (m.columns.map fun c => c.fixed.getD 1).getD j 0 := by
    rcases Nat.lt_or_ge j m.columns.length with hj | hj
    · rw [h.ledger.getD_filled hj]
      split
      · exact zero_le_one
      · exact le_rfl
    · rw [List.getD_eq_default _ _ (by simpa using hj)]
  refine ⟨by simp, fun j c v => h.ledger.filled_admits fun c hc => ?_, fun r hr hk => ?_⟩
  · obtain ⟨l, -, rfl⟩ := List.mem_map.mp hc
    exact zero_le_one
  · obtain ⟨e, he, hopen⟩ := h.coverable r hr hk
    obtain ⟨f, -, hb, hc⟩ := h.coefs_eq hr
    rw [hc] at he
    obtain ⟨j, hj, rfl⟩ := List.mem_map.mp he
    obtain ⟨l, hl, -⟩ := Model.mem_positions.mp hj
    have hone := h.ledger.getD_filled (j := j) (by
      rw [h.length_columns]
      exact (List.getElem?_eq_some_iff.mp hl).1)
    rw [if_pos hopen] at hone
    rw [hb, hc, weigh_ones]
    refine (hone.symm.le).trans (List.single_le_sum (fun x hx => ?_) _ (List.mem_map_of_mem hj))
    obtain ⟨i, -, rfl⟩ := List.mem_map.mp hx
    exact hnonneg i

theorem Posed.objective_nonneg (h : Posed p q m) (hcosts : ∀ l ∈ p.links, 0 ≤ l.cost) {x : List K}
    (hx : m.Admits x) : 0 ≤ m.system.objective x := by
  rw [System.objective, Scalar.sum_eq]
  refine List.sum_nonneg fun v hv => ?_
  obtain ⟨j, hj, rfl⟩ := List.getElem_of_mem hv
  have hlt : j < m.columns.length ∧ j < x.length := by simpa [Model.system] using hj
  obtain ⟨c₀, h₀, hcost, -⟩ := h.ledger.grown.column (List.getElem?_eq_getElem hlt.1)
  obtain ⟨l, hl, rfl⟩ := List.mem_map.mp (List.mem_of_getElem? h₀)
  have hvalue := h.getD_nonneg hx j
  rw [List.getD_eq_getElem?_getD, List.getElem?_eq_getElem hlt.2, Option.getD_some] at hvalue
  simp only [Model.system, Model.signed, h.direction, List.getElem_zipWith, List.getElem_map, hcost]
  exact mul_nonneg (hcosts l hl) hvalue

theorem sum_lt_one {ε : K} {xs : List K} {n : ℕ} (h0 : 0 ≤ ε) (hε : ε * n ≤ 1)
    (hlen : xs.length ≤ n) (hsmall : ∀ x ∈ xs, x = 0 ∨ |x| < ε) : xs.sum < 1 := by
  rcases h0.eq_or_lt with rfl | hpos
  · rw [List.sum_eq_zero fun x hx =>
      (hsmall x hx).resolve_right (not_lt.mpr (abs_nonneg x))]
    exact zero_lt_one
  · by_cases hne : xs = []
    · subst hne
      exact zero_lt_one
    · have hlt : (xs.map id).sum < (xs.map fun _ => ε).sum := by
        refine List.sum_lt_sum_of_ne_nil hne _ _ fun x hx => ?_
        rcases hsmall x hx with rfl | hlt
        · exact hpos
        · exact (le_abs_self x).trans_lt hlt
      rw [List.map_id, List.map_const', List.sum_replicate, nsmul_eq_mul] at hlt
      have hcast : (xs.length : K) ≤ n := by exact_mod_cast hlen
      calc xs.sum < xs.length * ε := hlt
        _ ≤ n * ε := mul_le_mul_of_nonneg_right hcast h0
        _ ≤ 1 := by rwa [mul_comm]

/-- What holds while columns are fixed: the point meets the kept rows, and what was dropped is next to
zero there. -/
structure Passing (p q : TreeAugmentation K) (m : Model K) : Prop extends Framed p q m where
  direction : m.direction = .minimize
  point : ∃ x, m.solution = some x ∧
    (∀ j, m.fixedAt j = some 0 →
      x.values.getD j 0 = 0 ∨ |x.values.getD j 0| < p.tolerance.epsilon) ∧
    ∀ r ∈ m.rows, r.relaxed = false → r.bound.Admits (weigh r.coefs x.values)

theorem Passing.posed (h : Passing p q m) (h0 : 0 ≤ p.tolerance.epsilon)
    (hε : p.tolerance.epsilon * p.links.length ≤ 1) : Posed p q m := by
  refine ⟨h.toFramed, h.direction, fun r hr hk => ?_⟩
  obtain ⟨x, -, hdropped, hmet⟩ := h.point
  obtain ⟨f, -, hb, hc⟩ := h.coefs_eq hr
  have hmet := hmet r hr hk
  rw [hb, hc, weigh_ones] at hmet
  by_contra hno
  push Not at hno
  refine not_lt.mpr hmet (sum_lt_one h0 hε ?_ fun v hv => ?_)
  · rw [List.length_map, coveredBy, Model.positions, List.length_map]
    simpa using List.length_filter_le (fun e : TreeLink K × Nat => covers f e.1) p.links.zipIdx
  · obtain ⟨j, hj, rfl⟩ := List.mem_map.mp hv
    exact hdropped j (hno (j, 1) (hc ▸ List.mem_map_of_mem hj))

theorem Passing.fix (h : Passing p q m) {q' : TreeAugmentation K} {j : Nat} {v : K}
    (hframed : Framed p q' m') (hf : Returns (Model.fixColumn j v) m () m')
    (hv : v = 0 → ∃ x, m.columnValue j = .ok x ∧ |x| < p.tolerance.epsilon) : Passing p q' m' := by
  obtain ⟨x, hx, hdropped, hmet⟩ := h.point
  obtain ⟨c, hc, -, rfl⟩ := Model.returns_fixColumn.mp hf
  refine ⟨hframed, h.direction, x, hx, fun i hi => ?_, hmet⟩
  rw [Model.fixedAt_set hc] at hi
  split at hi
  · next hij =>
    subst hij
    obtain ⟨y, hy, hlt⟩ := hv (Option.some.inj hi)
    rw [← Model.eq_getD_of_columnValue hx hy]
    exact .inr hlt
  · exact hdropped i hi

section Runs

variable [Backend K]

theorem policies_posed (p : TreeAugmentation K) (h0 : 0 ≤ p.tolerance.epsilon)
    (hε : p.tolerance.epsilon * p.links.length ≤ 1)
    (hsolver : (Backend.solver : Solver K).Sound) :
    Engine.Keeps (policies (K := K)) RoundRule.commitHalf.apply (Posed p) (Passing p)
      fun q m => Posed p q m ∧ m.Solved := by
  have solve {s t : Run (TreeAugmentation K) K} (h : Posed p s.problem s.lp)
      (hs : Returns Action.solveModel s .optimal t) :
      Posed p t.problem t.lp ∧ t.lp.Solved := by
    obtain ⟨hp, hm⟩ := Action.returns_solveModel hs
    have hframed := h.toFramed.solve hsolver hm
    have hsolved := Model.solved_of_solve hsolver hm
    obtain ⟨x, hlp, -⟩ := Model.returns_solve hm
    rw [hp]
    refine ⟨⟨hframed, ?_, ?_⟩, hsolved⟩ <;> rw [hlp]
    · exact h.direction
    · exact h.coverable
  refine ⟨solve, solve, ?_, fun h => h.posed h0 hε, RoundRule.commits_commitHalf.skip, ?_, ?_, ?_⟩
  · rintro q m ⟨h, x, hx, hadm⟩
    refine ⟨h.toFramed, h.direction, x, hx, fun j hj => .inl ?_, hadm.rows⟩
    by_cases hlt : j < x.values.length
    · exact hadm.fixed hj (by simp [hlt])
    · exact List.getD_eq_default _ _ (not_lt.mp hlt)
  · intro s t j v m h hr hf
    have hframed := RoundRule.commits_commitHalf.fix (Framed p) Framed.drop Framed.take h.toFramed
      hr hf
    have hlp : t.lp = s.lp := by
      rcases RoundRule.commits_commitHalf hr with ⟨-, rfl⟩ | ⟨-, rfl⟩ | ⟨-, hc⟩
      · rfl
      · rfl
      · obtain ⟨l, -, rfl⟩ := returns_commit hc
        rfl
    refine h.fix hframed (hlp ▸ hf) ?_
    rintro rfl
    obtain ⟨x, hx, hlt⟩ := RoundRule.dropped_of_commitHalf hr
    exact ⟨x, hx, (congrArg Tolerance.epsilon h.tolerance).symm ▸ hlt⟩
  · intro s t i h
    obtain ⟨rfl, -⟩ := relax_returns h
    exact ⟨rfl, rfl⟩
  · rintro s t i m ⟨h, hs⟩ hr hf
    obtain ⟨rfl, hc⟩ := relax_returns hr
    have hframed := h.toFramed.relax hc hf
    have hcoverable := h.coverable.relax hf
    obtain ⟨r, -, -, rfl⟩ := Model.returns_relaxRow.mp hf
    exact ⟨⟨hframed, h.direction, hcoverable⟩, hs.relax _⟩

/-- An instance with costs that are not negative that passes its check is never reported infeasible,
though a pass may drop many columns at once: before every solve, at every point and after every pass
each kept row has a column that is not dropped. -/
theorem augmentation_never_lost {ε : K} {g : Graph K} {mark costName : String}
    {entries : List Choice} (hg : g.Valid) (hmake : make ε g mark costName entries = .ok p)
    (hcosts : ∀ l ∈ p.links, 0 ≤ l.cost) (hε : ε * p.links.length ≤ 1)
    (hsolver : (Backend.solver : Solver K).Honest) :
    (∀ out t, Returns (Engine.solveProblem policies) { problem := p } out t →
      out.status = .optimal) ∧
    (∀ t u, Returns Roundable.check { problem := p } none t → Returns build t () u →
      Coverable u.lp) ∧
    ∀ t, Engine.Visits policies { problem := p } t → Coverable t.lp ∧
      ∀ u n v, t.Agree u → Returns (Engine.round policies) u n v → Coverable v.lp := by
  obtain ⟨h0, htol, -, -, hsink, hchosen, -⟩ := make_eq_ok hmake
  have htol : p.tolerance.epsilon = ε := congrArg Tolerance.epsilon htol
  have k := policies_posed p (htol ▸ h0) (htol ▸ hε) hsolver.sound
  have hfirst {t u : Run (TreeAugmentation K) K}
      (hc : Returns Roundable.check { problem := p } none t) (hi : Returns build t () u) :
      Posed p u.problem u.lp := by
    obtain ⟨hfind, rfl⟩ := returns_begin hc hi
    simp only [Roundable.check, returns_bind, Action.returns_problem, returns_pure] at hc
    obtain ⟨_, _, ⟨rfl, rfl⟩, hissue, -⟩ := hc
    have hroutes : ∀ l ∈ p.links, l.route ≠ none := by
      intro l hl hnone
      simpa [hnone] using List.find?_eq_none.mp hfind l hl
    refine ⟨framed_model hsink hchosen, rfl, coverable_model fun f hf => ?_⟩
    obtain ⟨i, hi⟩ := List.mem_iff_getElem?.mp hf
    exact exists_covering hg hmake hissue hroutes hi
  refine ⟨fun out t h => ?_, fun t u hc hi => (hfirst hc hi).coverable, fun t ht => ?_⟩
  · obtain ⟨s, u, hc, hi, hrun⟩ := Engine.returns_solveProblem h
    have hsolve {s t : Run (TreeAugmentation K) K} {st : Status} (h : Posed p s.problem s.lp)
        (hr : Returns Action.solveModel s st t) : st = .optimal :=
      Model.optimal_of_bounded hsolver ⟨_, h.admits⟩ (fun x hx => h.objective_nonneg hcosts hx)
        (Action.returns_solveModel hr).2
    exact Engine.run_optimal k rfl rfl hsolve hsolve hrun (hfirst hc hi)
  · have hpoint := ht.keeps k rfl rfl fun u v hc hi => hfirst hc hi
    refine ⟨hpoint.1.coverable, fun u n v hu hr => ?_⟩
    rw [← hu.1, ← hu.2] at hpoint
    simp only [Engine.round, policies, returns_bind, Action.returns_model] at hr
    obtain ⟨_, _, ⟨rfl, rfl⟩, hr⟩ := hr
    exact (k.exit (Engine.roundColumns_keeps k hr (k.enter hpoint))).coverable

end Runs

@[reducible] def starBackend : Backend ℚ :=
  { triangleBackend with solver := .offering [[1, 1, 0]] }

theorem star_never_lost :
    let _ := starBackend
    ∃ p : TreeAugmentation ℚ, make (1 / 3) star "tree" "cost" [] = .ok p ∧
      (∃ out t, Returns (Engine.solveProblem policies) { problem := p } out t) ∧
      (∀ out t, Returns (Engine.solveProblem policies) { problem := p } out t →
        out.status = .optimal) ∧
      ∀ t, Engine.Visits policies { problem := p } t → Coverable t.lp := by
  let _ := starBackend
  obtain ⟨p, hp, htest⟩ := exists_ok (make (1 / 3 : ℚ) star "tree" "cost" [])
    (fun p => solves policies p && (p.links.all fun l => decide (0 ≤ l.cost)) &&
      decide ((1 / 3 : ℚ) * p.links.length ≤ 1)) (by decide +kernel)
  simp only [Bool.and_eq_true, List.all_eq_true, decide_eq_true_eq] at htest
  obtain ⟨⟨hrun, hcosts⟩, hε⟩ := htest
  obtain ⟨out, t, h, -⟩ := exists_answer hrun
  obtain ⟨hstatus, -, hvisits⟩ := augmentation_never_lost star_valid hp hcosts hε
    (Solver.offering_honest _)
  exact ⟨p, hp, ⟨out, t, h⟩, hstatus, fun t ht => (hvisits t ht).1⟩

end LPRounding.TreeAugmentation
