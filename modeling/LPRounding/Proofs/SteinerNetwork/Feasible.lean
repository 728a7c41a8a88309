import LPRounding.Proofs.SteinerNetwork.Answer
import LPRounding.Proofs.Flow.Maximum
import LPRounding.Proofs.LP.Honest
import LPRounding.Proofs.Run.Progress

/-!
Steiner networks: an instance that passes its check is never lost. The columns that a pass drops are
among those that the oracle leaves out of its network, so the edges that stay meet what the accepted
point met, up to the tolerance; a whole requirement is then met in full. Taking all of them is a
point of every model that is solved.
-/

namespace LPRounding.SteinerNetwork

set_option linter.unusedSectionVars false

variable {K S : Type} [Field K] [LinearOrder K] [IsStrictOrderedRing K] [FloorRing K]
  {p q : SteinerNetwork K S} {m m' : Model K}

def left (p : SteinerNetwork K S) (m : Model K) (set : Finset Node) : Nat :=
  p.edges.zipIdx.countP fun e =>
    crosses set (e.1.name.u, e.1.name.v) && decide (m.fixedAt e.2 ≠ some 0)

/-- Across every set between the ends of a pair of the forest there are as many edges left as the
pair requires. -/
def Ample (p : SteinerNetwork K S) (m : Model K) : Prop :=
  ∀ pair ∈ p.pairs, ∀ set : Finset Node, decide (pair.1 ∈ set) ≠ decide (pair.2 ∈ set) →
    p.requirements.need pair.1 pair.2 ≤ p.left m set

def Whole (p : SteinerNetwork K S) : Prop := ∀ u v, ∃ k : ℤ, p.requirements.need u v = k

theorem Whole.need_le (h : p.Whole) {ε : K} (hε : ε < 1) {u v : Node} {n : ℕ}
    (hle : p.requirements.need u v - ε ≤ n) : p.requirements.need u v ≤ n := by
  obtain ⟨k, hk⟩ := h u v
  rw [hk] at hle ⊢
  have hlt : ((k - 1 : ℤ) : K) < (n : ℤ) := by
    push_cast
    linarith
  have hle : k ≤ n := by
    have := Int.cast_lt.mp hlt
    omega
  exact_mod_cast hle

theorem clear_of_firstUnmet [Backend K] {n : Network Site K} {pairs : List (Node × Node)}
    (h : p.firstUnmet n pairs = .ok none) : Search.Clear p.tolerance (p.measure n) pairs := by
  induction pairs with
  | nil => simp [Search.Clear]
  | cons pair rest ih =>
    obtain ⟨v, hv, h⟩ := ok_bind_iff.mp h
    split at h
    · cases h
    · next hc =>
      intro d hd
      rcases List.mem_cons.mp hd with rfl | hd
      · exact ⟨v, hv, Search.not_violated_iff.mp (by simpa using hc)⟩
      · exact ih h d hd

theorem clear_of_check [Backend K] {s t : Run (SteinerNetwork K S) K} (h : Returns check s none t) :
    Search.Clear s.problem.tolerance (s.problem.measure s.problem.fullNetwork) s.problem.pairs := by
  simp only [check, returns_bind, Action.returns_problem] at h
  obtain ⟨_, _, ⟨rfl, rfl⟩, h⟩ := h
  split at h
  · simp at h
  obtain ⟨v, u, hv, h⟩ := returns_bind.mp h
  obtain ⟨hunmet, rfl⟩ := returns_lift.mp hv
  cases v with
  | none => exact clear_of_firstUnmet hunmet
  | some v => simp at h

theorem ample_model [Backend K] (hg : p.graph.Valid) (hp : p.edges = p.graph.edges)
    (hw : p.Whole) (h1 : p.tolerance.epsilon < 1) (hflow : (Backend.flow : FlowFinder Site K).Sound)
    (h : Search.Clear p.tolerance (p.measure p.fullNetwork) p.pairs) : Ample p p.model := by
  intro pair hpair set hset
  obtain ⟨v, hv, hle⟩ := h pair hpair
  refine hw.need_le h1 ?_
  have hacross := le_across hg hflow (fun e he => ?_) hv hset
  · have hleft : across set (p.edges.map fun e => (e, (1 : K))) = p.left p.model set := by
      rw [across, List.map_map, left, cast_countP]
      have hopen (j : Nat) : p.model.fixedAt j = none := by simp [model, column, Model.fixedAt]
      conv_lhs => rw [← List.zipIdx_map_fst 0 p.edges, List.map_map]
      congr 1
      refine List.map_congr_left fun e _ => ?_
      simp [hopen]
    rw [hleft] at hacross
    linarith
  · obtain ⟨e, hmem, rfl⟩ := List.mem_map.mp he
    exact ⟨hp ▸ hmem, zero_le_one⟩

theorem separates_of_measure [Backend K] (h0 : 0 ≤ p.tolerance.epsilon)
    (hflow : (Backend.flow : FlowFinder Site K).Maximal) {entries : List (Edge K × K)}
    {pair : Node × Node} {v : Violation K (Node × Node)}
    (hv : p.measure (joined p.emptyNetwork entries) pair = .ok v) :
    v.side = p.requirements.need pair.1 pair.2 ∧ pair.1 ∈ v.witness ∧ pair.2 ∉ v.witness := by
  obtain ⟨hs, -⟩ := p.spread_joined entries
  obtain ⟨cut, hcut, hv⟩ := ok_bind_iff.mp hv
  obtain rfl := Except.ok.inj hv
  obtain ⟨hasked, -, hreach⟩ := FlowFinder.of_siteCut hs.valid hcut
  obtain ⟨hnear, hfar⟩ := (hflow _ _ _ hasked).separates hs.valid hasked.2.2.2.1 hasked.2.1 h0
  rw [← hreach] at hnear hfar
  exact ⟨rfl, Cut.mem_nodes.mpr hnear, fun hsink => hfar (Cut.mem_nodes.mp hsink)⟩

structure Posed (p q : SteinerNetwork K S) (m : Model K) : Prop extends Kept p q m where
  cuts : ∀ r ∈ m.rows, ∃ pair ∈ p.pairs, ∃ set : List Node,
    decide (pair.1 ∈ set) ≠ decide (pair.2 ∈ set) ∧
      r = cover .lower (p.requirements.need pair.1 pair.2) 0 (p.crossing set)

theorem posed_model {entries : List Choice} (hs : p.sink = .ofList entries) :
    Posed p p p.model :=
  ⟨kept_model hs, fun r hr => by cases hr⟩

theorem Kept.length_columns (h : Kept p q m) : m.columns.length = p.edges.length := by
  rw [h.ledger.grown.length]
  simp [model]

theorem Kept.range (h : Kept p q m) {x : List K} (hx : m.Admits x) (j : Nat) :
    0 ≤ x.getD j 0 ∧ x.getD j 0 ≤ 1 :=
  h.ledger.range (by simp [model, column]) hx j

theorem Posed.admits (h : Posed p q m) (ha : Ample p m) :
    m.Admits (m.columns.map fun c => c.fixed.getD 1) := by
  have hvalue {j : Nat} (hj : j < p.edges.length) :=
    h.ledger.getD_filled (h.length_columns ▸ hj)
  refine ⟨by simp, fun j c v => h.ledger.filled_admits fun c hc => ?_, fun r hr _ => ?_⟩
  · obtain ⟨e, -, rfl⟩ := List.mem_map.mp hc
    exact ⟨zero_le_one, le_rfl⟩
  · obtain ⟨pair, hpair, set, hset, rfl⟩ := h.cuts r hr
    have hweigh : weigh (cover .lower (p.requirements.need pair.1 pair.2) 0 (p.crossing set)).coefs
        (m.columns.map fun c => c.fixed.getD 1) = p.left m set.toFinset := by
      rw [weigh_eq, left, cast_countP]
      simp only [cover, crossing, Model.positions, List.map_map, sum_map_filter]
      congr 1
      refine List.map_congr_left fun e he => ?_
      have hj : e.2 < p.edges.length := by simpa using List.snd_lt_of_mem_zipIdx he
      simp only [Function.comp_apply, one_mul, hvalue hj, crosses, List.mem_toFinset]
      split <;> simp [*]
    have hneed := ha pair hpair set.toFinset (by simpa using hset)
    rw [← hweigh] at hneed
    exact hneed

/-- What holds while columns are fixed: the point met every pair up to the tolerance by the columns
above it, and no such column is dropped. -/
structure Passing (p q : SteinerNetwork K S) (m : Model K) : Prop extends Posed p q m where
  point : ∃ x, m.solution = some x ∧ (∀ j, x.values.getD j 0 ≤ 1) ∧
    (∀ j, m.fixedAt j = some 0 → x.values.getD j 0 ≤ p.tolerance.epsilon) ∧
    ∀ pair ∈ p.pairs, ∀ set : Finset Node, decide (pair.1 ∈ set) ≠ decide (pair.2 ∈ set) →
      p.requirements.need pair.1 pair.2 - p.tolerance.epsilon ≤ across set (p.shown x.values)

/-- What is left after a pass is ample. -/
theorem Passing.ample (h : Passing p q m) (hw : p.Whole) (h1 : p.tolerance.epsilon < 1) :
    Ample p m := by
  intro pair hpair set hset
  obtain ⟨x, -, hone, hdropped, hmet⟩ := h.point
  refine hw.need_le h1 ((hmet pair hpair set hset).trans ?_)
  rw [across, shown, sum_map_filter, List.map_map, left, cast_countP]
  refine List.sum_le_sum fun e _ => ?_
  simp only [Function.comp_apply, Tolerance.above_iff, zero_add, Bool.and_eq_true,
    decide_eq_true_eq]
  by_cases hlt : p.tolerance.epsilon < x.values.getD e.2 0
  · have hkept : m.fixedAt e.2 ≠ some 0 := fun hf => not_le.mpr hlt (hdropped _ hf)
    rw [if_pos hlt]
    by_cases hc : crosses set (e.1.name.u, e.1.name.v) = true
    · rw [if_pos hc, if_pos ⟨hc, hkept⟩, mul_one]
      exact hone _
    · rw [if_neg hc, if_neg fun hn => hc hn.1, mul_zero]
  · rw [if_neg hlt]
    split <;> simp

theorem Passing.fix (h : Passing p q m) {q' : SteinerNetwork K S} {j : Nat} {v : K}
    (hk : Kept p q' m') (hf : Returns (Model.fixColumn j v) m () m')
    (hv : v = 0 → ∃ x, m.columnValue j = .ok x ∧ |x| < p.tolerance.epsilon) : Passing p q' m' := by
  obtain ⟨x, hx, hone, hdropped, hmet⟩ := h.point
  obtain ⟨c, hc, -, rfl⟩ := Model.returns_fixColumn.mp hf
  refine ⟨⟨hk, h.cuts⟩, x, hx, hone, fun i hi => ?_, hmet⟩
  rw [Model.fixedAt_set hc] at hi
  split at hi
  · next hij =>
    subst hij
    obtain ⟨y, hy, hlt⟩ := hv (Option.some.inj hi)
    rw [← Model.eq_getD_of_columnValue hx hy]
    exact ((le_abs_self y).trans_lt hlt).le
  · exact hdropped i hi

section Runs

variable [Backend K] [Dice S K]

theorem search_keeps (p : SteinerNetwork K S) (h0 : 0 ≤ p.tolerance.epsilon)
    (hsolver : (Backend.solver : Solver K).Sound)
    (hflow : (Backend.flow : FlowFinder Site K).Maximal) :
    Oracle.Keeps (S := S) home checker tolerance fun q m => Posed p q m ∧ Ample p m where
  feasible := rfl
  separate := rfl
  solve h hs := by
    obtain ⟨x, rfl, -⟩ := Model.returns_solve hs
    obtain ⟨hk, hm⟩ := h.1.toKept.solve hsolver hs
    exact ⟨⟨⟨hk, h.1.cuts⟩, h.2⟩, hm⟩
  search h := ⟨⟨h.1.toKept.search, h.1.cuts⟩, h.2⟩
  append := by
    rintro q m v ⟨h, ha⟩ ⟨n, cs, hprep, pair, hpair, hv⟩
    refine ⟨⟨h.toKept.append, fun r hr => ?_⟩, ha⟩
    obtain ⟨sink, oracle, rfl⟩ := h.same
    obtain ⟨entries, -, hprep⟩ := ok_bind_iff.mp hprep
    obtain ⟨rfl, rfl⟩ := Prod.mk.inj (Except.ok.inj hprep)
    rcases List.mem_append.mp hr with hr | hr
    · exact h.cuts r hr
    · obtain ⟨hside, hnear, hfar⟩ := separates_of_measure (p := p) h0 hflow hv
      refine ⟨pair, hpair, v.witness, by simp [hnear, hfar], ?_⟩
      rw [List.mem_singleton.mp hr, ← hside]
      rfl
  get_set _ _ := rfl
  row_set _ _ _ := rfl

theorem generating_optimal (h0 : 0 ≤ p.tolerance.epsilon)
    (hsolver : (Backend.solver : Solver K).Honest)
    (hflow : (Backend.flow : FlowFinder Site K).Maximal) {s t : Run (SteinerNetwork K S) K}
    {st : Status} (h : Posed p s.problem s.lp ∧ Ample p s.lp)
    (hr : Returns SolveRule.generating.apply s st t) : st = .optimal := by
  refine (search_keeps p h0 hsolver.sound hflow).generating_optimal (fun h hs => ?_) h hr
  refine Model.optimal_of_solve hsolver ⟨_, h.1.admits h.2⟩ 1 (fun x hx j => ?_) hs
  obtain ⟨hlo, hup⟩ := h.1.range hx j
  rwa [abs_of_nonneg hlo]

/-- A run keeps enough edges: before a solve, while columns are fixed, and at a point. -/
theorem policies_ample (p : SteinerNetwork K S) (hg : p.graph.Valid) (hp : p.edges = p.graph.edges)
    (hw : p.Whole) (h0 : 0 ≤ p.tolerance.epsilon) (h1 : p.tolerance.epsilon < 1)
    (hsolver : (Backend.solver : Solver K).Honest)
    (hflow : (Backend.flow : FlowFinder Site K).Maximal) :
    Engine.Keeps (policies (K := K) (S := S)) RoundRule.commitHalf.apply
      (fun q m => Posed p q m ∧ Ample p m) (Passing p)
      fun q m => (Posed p q m ∧ Ample p m) ∧ m.Solved ∧ Oracle.Accepts checker p.tolerance p m := by
  have generate {s t : Run (SteinerNetwork K S) K} (h : Posed p s.problem s.lp ∧ Ample p s.lp)
      (hs : Returns SolveRule.generating.apply s .optimal t) :
      (Posed p t.problem t.lp ∧ Ample p t.lp) ∧ t.lp.Solved ∧
        Oracle.Accepts checker p.tolerance p t.lp := by
    have horacle := search_keeps p h0 hsolver.sound hflow
    obtain ⟨q, o, hq, hk, hx, ha⟩ := horacle.generating h hs
    rw [hq]
    obtain ⟨sink, oracle, rfl⟩ := hk.1.same
    exact ⟨horacle.search hk, hx, ha⟩
  refine ⟨generate, generate, ?_, fun h => ⟨h.toPosed, h.ample hw h1⟩,
    RoundRule.commits_commitHalf.skip, ?_, ?_, ?_⟩
  · rintro q m ⟨⟨h, -⟩, ⟨x, hx, hadm⟩, ha⟩
    refine ⟨h, x, hx, fun j => (h.range hadm j).2, fun j hj => ?_, fun pair hpair set hset => ?_⟩
    · by_cases hlt : j < x.values.length
      · have hget : x.values[j]? = some (x.values.getD j 0) := by simp [hlt]
        rw [hadm.fixed hj hget]
        exact h0
      · simpa [List.getElem?_eq_none (not_lt.mp hlt)] using h0
    · exact need_le_across ha hg hp h0 hflow.sound hx hpair hset
  · intro s t j v m h hr hf
    have hk := RoundRule.commits_commitHalf.fix (Kept p) Kept.drop Kept.take h.toKept hr hf
    have hlp : t.lp = s.lp := by
      rcases RoundRule.commits_commitHalf hr with ⟨-, rfl⟩ | ⟨-, rfl⟩ | ⟨-, hc⟩
      · rfl
      · rfl
      · obtain ⟨e, -, rfl⟩ := returns_commit hc
        rfl
    refine h.fix hk (hlp ▸ hf) ?_
    rintro rfl
    obtain ⟨x, hx, hlt⟩ := RoundRule.dropped_of_commitHalf hr
    obtain ⟨sink, oracle, hsame⟩ := h.same
    rw [hsame] at hlt
    exact ⟨x, hx, hlt⟩
  · intro s t i h
    obtain ⟨-, rfl⟩ := returns_pure.mp h
    exact ⟨rfl, rfl⟩
  · intro s t i m h hr hf
    obtain ⟨hb, -⟩ := returns_pure.mp hr
    cases hb

/-- An instance with whole requirements that passes its check is never reported infeasible: at every
point and after every pass enough edges are left across every set between the ends of a pair. -/
theorem network_never_lost {ε : K} {g : Graph K} {required : List ((Node × Node) × K)}
    {costName : String} {entries : List Choice} {strategy : Strategy} {dice : S} (hg : g.Valid)
    (hmake : make ε g (.ofList required) costName entries strategy dice = .ok p) (hε : ε < 1)
    (hwhole : ∀ e ∈ required, ∃ k : ℤ, e.2 = k) (hsolver : (Backend.solver : Solver K).Honest)
    (hflow : (Backend.flow : FlowFinder Site K).Maximal) :
    (∀ out t, Returns (Engine.solveProblem policies) { problem := p } out t →
      out.status = .optimal) ∧
    (∀ t u, Returns check { problem := p } none t → Returns build t () u → Ample p u.lp) ∧
    ∀ t, Engine.Visits policies { problem := p } t → Ample p t.lp ∧
      ∀ u n v, t.Agree u → Returns (Engine.round policies) u n v → Ample p v.lp := by
  obtain ⟨hgraph, hedges, hreq, -, htol, h0, hsink⟩ := make_eq_ok hmake
  have hw : p.Whole := fun u v => hreq ▸ Requirements.whole_need hwhole u v
  have h1 : p.tolerance.epsilon < 1 := htol ▸ hε
  have k := policies_ample p (hgraph ▸ hg) (hgraph ▸ hedges) hw (htol ▸ h0) h1 hsolver hflow
  have hfirst {t u : Run (SteinerNetwork K S) K} (hc : Returns check { problem := p } none t)
      (hi : Returns build t () u) : Posed p u.problem u.lp ∧ Ample p u.lp := by
    have hclear := clear_of_check hc
    obtain rfl := returns_check hc
    simp only [build, returns_bind, Action.returns_problem, Action.returns_setModel] at hi
    obtain ⟨_, _, ⟨rfl, rfl⟩, rfl⟩ := hi
    exact ⟨posed_model hsink, ample_model (hgraph ▸ hg) (hgraph ▸ hedges) hw h1 hflow.sound hclear⟩
  refine ⟨fun out t h => ?_, fun t u hc hi => (hfirst hc hi).2, fun t ht => ?_⟩
  · obtain ⟨s, u, hc, hi, hrun⟩ := Engine.returns_solveProblem h
    have hsolve {s t : Run (SteinerNetwork K S) K} {st : Status}
        (h : Posed p s.problem s.lp ∧ Ample p s.lp)
        (hr : Returns SolveRule.generating.apply s st t) : st = .optimal :=
      generating_optimal (htol ▸ h0) hsolver hflow h hr
    exact Engine.run_optimal k rfl rfl hsolve hsolve hrun (hfirst hc hi)
  · have hpoint := ht.keeps k rfl rfl fun u v hc hi => hfirst hc hi
    refine ⟨hpoint.1.2, fun u n v hu hr => ?_⟩
    rw [← hu.1, ← hu.2] at hpoint
    simp only [Engine.round, policies, returns_bind, Action.returns_model] at hr
    obtain ⟨_, _, ⟨rfl, rfl⟩, hr⟩ := hr
    exact (k.exit (Engine.roundColumns_keeps k hr (k.enter hpoint))).2

end Runs

@[reducible] noncomputable def honestBackend : Backend ℚ where
  solver := .offering [[1, 1, 3 / 4, 1 / 4], [1, 1, 1, 0]]
  flow := .largest Augment.finder
  passes := 5

theorem corner_never_lost :
    let _ := honestBackend
    let _ : Dice Unit ℚ := Dice.zero
    ∃ p : SteinerNetwork ℚ Unit,
      make (1 / 10) corner (.ofList cornerNeeds) "cost" [] .first () = .ok p ∧
      (∃ out t, Returns (Engine.solveProblem policies) { problem := p } out t) ∧
      (∀ out t, Returns (Engine.solveProblem policies) { problem := p } out t →
        out.status = .optimal) ∧
      ∀ t, Engine.Visits policies { problem := p } t → Ample p t.lp := by
  let _ := honestBackend
  let _ : Dice Unit ℚ := Dice.zero
  obtain ⟨p, hp, hrun⟩ := exists_ok
    (make (1 / 10) corner (.ofList cornerNeeds) "cost" [] .first ()) (solves policies) (by
      rw [make, prune_corner]
      decide +kernel)
  obtain ⟨out, t, h, -⟩ := exists_answer hrun
  have hwhole : ∀ e ∈ cornerNeeds, ∃ k : ℤ, e.2 = k := by decide +kernel
  obtain ⟨hstatus, -, hvisits⟩ := network_never_lost corner_valid hp (by norm_num) hwhole
    (Solver.offering_honest _) (FlowFinder.largest_maximal _)
  exact ⟨p, hp, ⟨out, t, h⟩, hstatus, fun t ht => (hvisits t ht).1⟩

end LPRounding.SteinerNetwork
