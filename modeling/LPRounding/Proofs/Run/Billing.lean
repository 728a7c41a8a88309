import LPRounding.Proofs.Run.Commitment
import LPRounding.Proofs.Run.Final
import LPRounding.Proofs.Run.Order

/-!
Two accounts of one run. What it reports is what the constants of its columns cost, and what it has
handed over are the elements of the columns at one, so the report is what the elements cost.
-/

namespace LPRounding

set_option linter.unusedSectionVars false

variable {K : Type} [Field K] [LinearOrder K] [IsStrictOrderedRing K] [FloorRing K]

namespace Model

variable {m m' : Model K}

def costAt (m : Model K) (j : Nat) : K := (m.columns[j]?.map Column.cost).getD 0

theorem Grown.costAt (h : m.Grown m') (j : Nat) : m'.costAt j = m.costAt j := by
  have hj := congrArg (fun cs => (cs[j]?.map Prod.fst).getD 0) h.columns
  simpa [Model.costAt, Function.comp_def] using hj

theorem costOf_constants (m : Model K) :
    m.costOf m.constants =
      ((List.range m.columns.length).map fun j => m.costAt j * (m.fixedAt j).getD 0).sum := by
  rw [costOf, constants, List.zipWith_map_right, List.zipWith_self]
  congr 1
  refine List.ext_getElem (by simp) fun j hj hj' => ?_
  have hlt : j < m.columns.length := by simpa using hj
  simp [costAt, fixedAt, hlt]

theorem costOf_ones (hint : ∀ j v, m.fixedAt j = some v → v = 0 ∨ v = 1) {js : List Nat}
    (hn : js.Nodup) (hmem : ∀ j, j ∈ js ↔ m.fixedAt j = some 1) :
    m.costOf m.constants = (js.map m.costAt).sum := by
  have hperm : js.Perm ((List.range m.columns.length).filter fun j => m.fixedAt j = some 1) := by
    refine (List.perm_ext_iff_of_nodup hn (List.nodup_range.filter _)).mpr fun j => ?_
    simp only [hmem, List.mem_filter, List.mem_range, decide_eq_true_eq, iff_and_self]
    intro hj
    obtain ⟨c, hc, -⟩ := Option.bind_eq_some_iff.mp hj
    exact (List.getElem?_eq_some_iff.mp hc).1
  rw [costOf_constants, (hperm.map _).sum_eq, sum_map_filter]
  congr 1
  refine List.map_congr_left fun j _ => ?_
  cases hj : m.fixedAt j with
  | none => simp
  | some v => rcases hint j v hj with rfl | rfl <;> simp

end Model

variable {P : Type} [Roundable P K] {p : Policies P K} {same : P → P → Prop}

/-- A policy that only reads, but for what `same` lets it change of a problem. -/
structure Action.Quiet {α : Type} (same : P → P → Prop) (act : Action P K α) : Prop where
  aloof : act.Aloof same
  still : ∀ {s a t}, Returns act s a t → Engine.Still s t

theorem Action.quiet_of_eq {α : Type} {act : Action P K α} (hrefl : ∀ q, same q q)
    (h : ∀ {s a t}, Returns act s a t → s = t) : act.Quiet same :=
  ⟨aloof_of_eq hrefl h, fun hr => h hr ▸ .refl _⟩

variable [Backend K]

/-- The rounding rule commits the columns that it fixes at one; to relax and to hand over the
solution the policies only read. -/
structure Policies.Committing (p : Policies P K) (same : P → P → Prop) : Prop where
  standard : p.Standard
  rounding : ∃ rule, p.rounding = .perColumn rule ∧ RoundRule.Commits rule
  relax : ∀ i, (p.relax i).Quiet same
  setSolution : p.setSolution.Quiet same

/-- To solve, to take an element, to check a point and to add a row change no more of a run than
they are there for. -/
structure Roundable.Tidy (P : Type) [Roundable P K] (same : P → P → Prop) : Prop where
  refl : ∀ q, same q q
  solve : ∀ rule : SolveRule, (rule.apply : Action P K _).Aloof same
  commit : ∀ {s t : Run P K} {j}, Returns (Roundable.commit j) s () t → Engine.Still s t
  feasible : ∀ {s t : Run P K} {b}, Returns Roundable.feasible s b t → Engine.Still s t
  separate : ∀ {s t : Run P K} {i}, Returns Roundable.separate s i t → s.Appended t

theorem Policies.ask_eq {rule : Nat → Action P K (Option K)} (h : p.rounding = .perColumn rule) :
    p.ask = rule := by
  simp [ask, h]

namespace Policies.Committing

theorem aloof (hp : p.Committing same) (ht : Roundable.Tidy P same) : p.Aloof same := by
  obtain ⟨r, hr⟩ := hp.standard.solve
  obtain ⟨r', hr'⟩ := hp.standard.resolve
  exact ⟨hr ▸ ht.solve r, hr' ▸ ht.solve r', fun i => (hp.relax i).aloof,
    hp.standard.stop ▸ StopRule.aloof ht.refl _, hp.setSolution.aloof⟩

theorem restrained (hp : p.Committing same) (ht : Roundable.Tidy P same) : p.Restrained := by
  obtain ⟨r, hr⟩ := hp.standard.solve
  obtain ⟨r', hr'⟩ := hp.standard.resolve
  obtain ⟨rule, hrule, hcommits⟩ := hp.rounding
  refine ⟨fun h => ?_, fun h => ?_, fun h => ?_, (hp.relax _).still, fun h => ?_,
    hp.setSolution.still⟩
  · exact r.appended ht.feasible ht.separate (hr ▸ h)
  · exact r'.appended ht.feasible ht.separate (hr' ▸ h)
  · rw [ask_eq hrule] at h
    rcases hcommits h with ⟨-, rfl⟩ | ⟨-, rfl⟩ | ⟨-, h⟩
    · exact .refl _
    · exact .refl _
    · exact ht.commit h
  · rw [hp.standard.stop] at h
    exact StopRule.still _ h

end Policies.Committing

namespace Engine

variable {s t : Run P K} {a b : Stage K × Run P K}

theorem Walk.constants (hp : p.Restrained) {q : K → Prop}
    (hask : ∀ {s t j v}, Returns (p.ask j) s (some v) t → q v) (h : Walk p p.ask a b)
    (ha : ∀ j v, a.2.lp.fixedAt j = some v → q v) :
    ∀ j v, b.2.lp.fixedAt j = some v → q v := by
  induction h with
  | refl => exact ha
  | tail _ hstep ih =>
    intro i w hw
    rcases (hstep.move hp).columns with heq | ⟨_, j, _, _, _, v, -, hv, hf⟩
    · rw [Model.fixedAt, heq] at hw
      exact ih i w hw
    · obtain ⟨c, hc, -, hlp⟩ := Model.returns_fixColumn.mp hf
      rw [hlp, Model.fixedAt_set hc] at hw
      split at hw
      · exact Option.some.inj hw ▸ hask hv
      · exact ih i w hw

theorem Records.of_commits {rule rule' : Nat → Action P K (Option K)}
    {tells : P → List Nat → Prop} (h : Records rule same tells)
    (hc : RoundRule.Commits rule') : Records rule' same tells :=
  ⟨hc, h.same, h.commit⟩

/-- A run with an answer reports what the columns cost that its problem tells of. -/
theorem billed_of_run {rule : Nat → Action P K (Option K)} {tells : P → List Nat → Prop}
    (hsolver : (Backend.solver : Solver K).Truthful) (ht : Roundable.Tidy P same)
    (hr : Records rule same tells) (hp : p.Committing same)
    (hopen : ∀ c ∈ s.lp.columns, c.fixed = none) (htaken : taken s.trace = [])
    (hs : tells s.problem []) {out : Outcome K} (h : Returns (run p) s out t)
    (ho : out.status = .optimal) :
    ∃ js, tells t.problem js ∧ out.objective = some (js.map s.lp.costAt).sum := by
  obtain ⟨rule', hrule, hcommits⟩ := hp.rounding
  have hstart : Account tells s := account_start hopen htaken hs
  have hreach := reached_of_returns h
  have hacc : Account tells t := by
    rcases reached_accounted (hr.of_commits hcommits) (hp.aloof ht) hstart
      (reached_of_run hrule h) with ⟨-, ht⟩ | ⟨⟨_, hout, hlost⟩, -⟩
    · exact ht
    · obtain rfl := Stage.ended.inj hout
      simp [ho] at hlost
  have hlater := Walk.later (hp.restrained ht) hreach
  have hbinary := Walk.constants (q := fun v => v = 0 ∨ v = 1) (hp.restrained ht)
    (fun h => by
      rw [Policies.ask_eq hrule] at h
      rcases hcommits h with ⟨hv, -⟩ | ⟨hv, -⟩ | ⟨hv, -⟩
      · cases hv
      · exact .inl (Option.some.inj hv)
      · exact .inr (Option.some.inj hv)) hreach fun j v hv => by
      obtain ⟨c, hc, hfixed⟩ := Option.bind_eq_some_iff.mp hv
      rw [hopen c (List.mem_of_getElem? hc)] at hfixed
      cases hfixed
  have hfinal := final_of_run hsolver (fun h => (ht.feasible h).1) hp.standard h ho
  refine ⟨taken t.trace, hacc.problem, ?_⟩
  rw [hfinal.objective, Model.costOf_ones hbinary hacc.nodup hacc.mem]
  exact congrArg some (congrArg List.sum (List.map_congr_left fun j _ => hlater.costAt j))

end Engine

/-- What was handed over since `entries` are edges of the graph, and `objective` is what these cost
together. -/
def Sink.Billed (sink : Sink) (g : Graph K) (costName : String) (entries : List Choice)
    (objective : Option K) : Prop :=
  ∃ chosen : List (Edge K), (∀ e ∈ chosen, e ∈ g.edges) ∧
    sink.entries = entries ++ chosen.map (fun e => .edge e.name) ∧
    objective = some (chosen.map fun e => e.cost costName).sum

theorem Sink.Lists.billed {sink : Sink} {g : Graph K} {costName : String} {start : List Choice}
    {edges : List (Edge K)} {js : List Nat} {es : List EdgeName} {m : Model K}
    (h : sink.Lists start (edges.map Edge.name) js es) (hedges : ∀ e ∈ edges, e ∈ g.edges)
    (hm : m.columns.map Column.cost = edges.map fun e => e.cost costName) :
    sink.Billed g costName start (some (js.map m.costAt).sum) := by
  have hcost (j : Nat) : m.costAt j = (edges[j]?.map fun e => e.cost costName).getD 0 := by
    rw [Model.costAt, ← List.getElem?_map, hm, List.getElem?_map]
  obtain ⟨chosen, hmem, rfl, hsum⟩ : ∃ chosen : List (Edge K), (∀ e ∈ chosen, e ∈ edges) ∧
      es = chosen.map Edge.name ∧ js.map m.costAt = chosen.map fun e => e.cost costName := by
    have hnames := h.names
    clear h
    induction js generalizing es with
    | nil => exact ⟨[], by simp, by simpa using hnames.symm, rfl⟩
    | cons j js ih =>
      obtain ⟨n, es, rfl⟩ := List.exists_cons_of_ne_nil (l := es) (by rintro rfl; cases hnames)
      obtain ⟨hj, hjs⟩ := List.cons.inj hnames
      obtain ⟨e, he, rfl⟩ : ∃ e, edges[j]? = some e ∧ e.name = n := by simpa using hj
      obtain ⟨chosen, hmem, rfl, hsum⟩ := ih hjs
      refine ⟨e :: chosen, ?_, rfl, by simp [hcost, he, ← hsum]⟩
      simpa using ⟨List.mem_of_getElem? he, hmem⟩
  refine ⟨chosen, fun e he => hedges e (hmem e he), ?_, by rw [hsum]⟩
  rw [h.entries, List.map_map]
  rfl

section Oracle

variable {S C N : Type} [Dice S K] {h : Oracle.Home P K S C N} {k : Checker P K C N}
  {tolerance : P → Tolerance K} {s t : Run P K}

theorem Oracle.feasible_still {b : Bool} (hr : Returns (Oracle.feasible h k tolerance) s b t) :
    Engine.Still s t := by
  simp only [Oracle.feasible, returns_bind, Action.returns_model, Action.returns_onProblem,
    returns_pure] at hr
  obtain ⟨_, _, ⟨rfl, rfl⟩, _, _, ⟨_, -, rfl⟩, -, rfl⟩ := hr
  exact ⟨rfl, rfl⟩

theorem Oracle.separate_appended {i : Nat} (hr : Returns (Oracle.separate h k) s i t) :
    s.Appended t := by
  simp only [Oracle.separate, returns_bind, Action.returns_problem, Action.returns_onProblem,
    Action.returns_onModel, Action.returns_note, Model.returns_appendRow, returns_pure] at hr
  obtain ⟨_, _, ⟨rfl, rfl⟩, v, _, ⟨_, -, rfl⟩, _, _, ⟨_, ⟨-, rfl⟩, rfl⟩, _, _, rfl, -, rfl⟩ := hr
  exact ⟨⟨[k.row s.problem v], s.lp.solution, rfl⟩, rfl⟩

end Oracle

variable {S : Type} [Dice S K]

namespace SteinerNetwork

theorem tidy : Roundable.Tidy (SteinerNetwork K S) home.Apart where
  refl q := ⟨q.oracle, rfl⟩
  solve := SolveRule.aloof (fun q => ⟨q.oracle, rfl⟩) (.trans fun _ _ _ => rfl)
    Oracle.aloof_feasible Oracle.aloof_separate
  commit h := by
    obtain ⟨e, -, rfl⟩ := returns_commit h
    exact ⟨rfl, rfl⟩
  feasible := Oracle.feasible_still
  separate := Oracle.separate_appended

theorem policies_committing :
    (policies : Policies (SteinerNetwork K S) K).Committing home.Apart where
  standard := ⟨⟨.generating, rfl⟩, ⟨.generating, rfl⟩, rfl, fun h => by
    obtain ⟨-, rfl⟩ := returns_pure.mp h
    rfl⟩
  rounding := ⟨_, rfl, RoundRule.commits_commitHalf⟩
  relax _ := Action.quiet_of_eq tidy.refl fun h => (returns_pure.mp h).2
  setSolution := Action.quiet_of_eq tidy.refl fun h => (returns_pure.mp h).2

theorem costName_of_make {ε : K} {g : Graph K} {needs : Requirements K} {costName : String}
    {entries : List Choice} {strategy : Strategy} {dice : S} {p : SteinerNetwork K S}
    (h : make ε g needs costName entries strategy dice = .ok p) : p.costName = costName := by
  unfold make at h
  split at h
  · cases h
  simp only [ok_bind_iff] at h
  obtain ⟨_, -, _, -, h⟩ := h
  obtain rfl := Except.ok.inj h
  rfl

end SteinerNetwork

namespace BoundedTree

theorem tidy : Roundable.Tidy (BoundedTree K S) home.Apart where
  refl q := ⟨q.oracle, rfl⟩
  solve := SolveRule.aloof (fun q => ⟨q.oracle, rfl⟩) (.trans fun _ _ _ => rfl)
    Oracle.aloof_feasible Oracle.aloof_separate
  commit h := by
    obtain ⟨e, -, rfl⟩ := returns_commit h
    exact ⟨rfl, rfl⟩
  feasible := Oracle.feasible_still
  separate := Oracle.separate_appended

theorem policies_committing :
    (policies : Policies (BoundedTree K S) K).Committing home.Apart where
  standard := ⟨⟨.generating, rfl⟩, ⟨.generating, rfl⟩, rfl, fun h => by
    obtain ⟨-, rfl⟩ := returns_pure.mp h
    rfl⟩
  rounding := ⟨_, rfl, RoundRule.commits_commitOne⟩
  relax _ := Action.quiet_of_eq tidy.refl fun h => (returns_relaxable h).1
  setSolution := Action.quiet_of_eq tidy.refl fun h => (returns_pure.mp h).2

theorem costName_of_make {ε : K} {g : Graph K} {bounds : List (Node × Int)} {costName : String}
    {entries : List Choice} {strategy : Strategy} {dice : S} {p : BoundedTree K S}
    (h : make ε g bounds costName entries strategy dice = .ok p) : p.costName = costName := by
  unfold make at h
  split at h
  · cases h
  obtain ⟨_, -, h⟩ := ok_bind_iff.mp h
  obtain rfl := Except.ok.inj h
  rfl

end BoundedTree

namespace TreeAugmentation

theorem tidy : Roundable.Tidy (TreeAugmentation K) Eq where
  refl _ := rfl
  solve := SolveRule.aloof (fun _ => rfl) (fun _ _ _ => .trans)
    (Action.aloof_pure (fun _ => rfl) _) fun s i t h => by simp [Roundable.separate] at h
  commit h := by
    obtain ⟨l, -, rfl⟩ := returns_commit h
    exact ⟨rfl, rfl⟩
  feasible h := by
    obtain ⟨-, rfl⟩ := returns_pure.mp h
    exact .refl _
  separate h := by simp [Roundable.separate] at h

theorem policies_committing : (policies : Policies (TreeAugmentation K) K).Committing Eq where
  standard := ⟨⟨.plain, rfl⟩, ⟨.plain, rfl⟩, rfl, fun h => by
    obtain ⟨-, rfl⟩ := returns_pure.mp h
    rfl⟩
  rounding := ⟨_, rfl, RoundRule.commits_commitHalf⟩
  relax i := Action.quiet_of_eq tidy.refl fun h => by
    simp only [policies, returns_bind, Action.returns_problem, returns_pure] at h
    obtain ⟨_, _, ⟨rfl, rfl⟩, -, rfl⟩ := h
    rfl
  setSolution := Action.quiet_of_eq tidy.refl fun h => (returns_pure.mp h).2

end TreeAugmentation

/-- A run with an answer ends with constants that meet all rows that are left, and reports what
they cost; where the rounding rule commits columns, that is what the elements handed over cost. -/
theorem report_is_cost (hsolver : (Backend.solver : Solver K).Truthful) :
    (∀ (P : Type) [Roundable P K] (p : Policies P K) (s t : Run P K) (out : Outcome K),
      (∀ {s t : Run P K} {b}, Returns Roundable.feasible s b t → t.lp = s.lp) → p.Standard →
      Returns (Engine.run p) s out t → out.status = .optimal → t.lp.Final out.objective) ∧
    ∀ (ε : K) (g : Graph K) (costName : String) (entries : List Choice),
      (∀ (needs : Requirements K) (strategy : Strategy) (dice : S) (p : SteinerNetwork K S)
        (pol : Policies (SteinerNetwork K S) K) (s t : Run (SteinerNetwork K S) K)
        (out : Outcome K),
        SteinerNetwork.make ε g needs costName entries strategy dice = .ok p →
        pol.Committing SteinerNetwork.home.Apart →
        s.problem = p → s.lp = p.model → taken s.trace = [] →
        Returns (Engine.run pol) s out t → out.status = .optimal →
        t.problem.sink.Billed g costName entries out.objective) ∧
      (∀ (bounds : List (Node × Int)) (strategy : Strategy) (dice : S) (p : BoundedTree K S)
        (pol : Policies (BoundedTree K S) K) (s t : Run (BoundedTree K S) K) (out : Outcome K),
        BoundedTree.make ε g bounds costName entries strategy dice = .ok p →
        pol.Committing BoundedTree.home.Apart →
        s.problem = p → s.lp = p.model → taken s.trace = [] →
        Returns (Engine.run pol) s out t → out.status = .optimal →
        t.problem.sink.Billed g costName entries out.objective) ∧
      ∀ (mark : String) (p : TreeAugmentation K) (pol : Policies (TreeAugmentation K) K)
        (s t : Run (TreeAugmentation K) K) (out : Outcome K),
        TreeAugmentation.make ε g mark costName entries = .ok p → pol.Committing Eq →
        s.problem = p → s.lp = p.model → taken s.trace = [] →
        Returns (Engine.run pol) s out t → out.status = .optimal →
        t.problem.sink.Billed g costName entries out.objective ∧
          out.objective = some t.problem.solutionCost := by
  refine ⟨fun P _ p s t out hf hp h ho => Engine.final_of_run hsolver hf hp h ho,
    fun ε g costName entries => ⟨?_, ?_, ?_⟩⟩
  · intro needs strategy dice p pol s t out hmake hp hs hm ht h ho
    obtain ⟨-, hedges, -, -, -, -, hsink⟩ := SteinerNetwork.make_eq_ok hmake
    have hcost := SteinerNetwork.costName_of_make hmake
    have hstart : p.Tells entries s.problem [] := by
      rw [hs]
      exact ⟨rfl, [], hsink ▸ .ofList entries _⟩
    obtain ⟨js, ⟨-, es, hlists⟩, hout⟩ := Engine.billed_of_run hsolver SteinerNetwork.tidy
      (p.records entries) hp (by simp [hm, SteinerNetwork.model, SteinerNetwork.column]) ht
      hstart h ho
    rw [hout]
    refine hlists.billed (by simp [hedges]) ?_
    simp [hm, SteinerNetwork.model, SteinerNetwork.column, Function.comp_def, hcost]
  · intro bounds strategy dice p pol s t out hmake hp hs hm ht h ho
    obtain ⟨-, hedges, -, -, -, hsink, hcommitted⟩ := BoundedTree.make_eq_ok hmake
    have hcost := BoundedTree.costName_of_make hmake
    have hstart : p.Tells entries s.problem [] := by
      rw [hs]
      exact ⟨rfl, [], hsink ▸ .ofList entries _, hcommitted⟩
    obtain ⟨js, ⟨-, es, hlists, -⟩, hout⟩ := Engine.billed_of_run hsolver BoundedTree.tidy
      (p.records entries) hp (by simp [hm, BoundedTree.model, BoundedTree.column]) ht
      hstart h ho
    rw [hout]
    refine hlists.billed (by simp [hedges]) ?_
    simp [hm, BoundedTree.model, BoundedTree.column, Function.comp_def, hcost]
  · intro mark p pol s t out hmake hp hs hm ht h ho
    obtain ⟨-, -, -, -, hsink, hchosen, hlinks⟩ := TreeAugmentation.make_eq_ok hmake
    have hzero := TreeAugmentation.solutionCost_of_make hmake
    have hstart : p.Tells entries s.problem [] := by
      rw [hs]
      exact ⟨rfl, hsink ▸ hchosen ▸ .ofList entries _, by simpa using hzero⟩
    obtain ⟨js, ⟨-, hlists, hcost⟩, hout⟩ := Engine.billed_of_run hsolver TreeAugmentation.tidy
      (p.records entries) hp (by simp [hm, TreeAugmentation.model, TreeAugmentation.column]) ht
      hstart h ho
    rw [hout]
    constructor
    · have hnames : p.links.map TreeLink.name =
          (g.edges.filter fun e => !TreeAugmentation.isMarked mark e).map Edge.name := by
        simp [hlinks, Function.comp_def]
      refine Sink.Lists.billed (hnames ▸ hlists) (fun e he => List.mem_of_mem_filter he) ?_
      simp [hm, hlinks, TreeAugmentation.model, TreeAugmentation.column, Function.comp_def]
    · rw [hcost]
      refine congrArg some (congrArg List.sum (List.map_congr_left fun j _ => ?_))
      simp [Model.costAt, hm, TreeAugmentation.model, TreeAugmentation.column, Function.comp_def]

theorem reports_of_runs :
    (let _ := SteinerNetwork.cornerBackend
      let _ : Dice Unit ℚ := Dice.zero
      ∃ (p : SteinerNetwork ℚ Unit) (out : Outcome ℚ) (t : Run (SteinerNetwork ℚ Unit) ℚ),
        Returns (Engine.run SteinerNetwork.policies) { problem := p, lp := p.model } out t ∧
        out.status = .optimal ∧ t.lp.Final out.objective ∧
        t.problem.sink.Billed SteinerNetwork.corner "cost" [.vertex (.number 7)] out.objective) ∧
    (let _ := BoundedTree.fanBackend
      let _ : Dice Unit ℚ := Dice.zero
      ∃ (p : BoundedTree ℚ Unit) (out : Outcome ℚ) (t : Run (BoundedTree ℚ Unit) ℚ),
        Returns (Engine.run BoundedTree.policies) { problem := p, lp := p.model } out t ∧
        out.status = .optimal ∧ t.lp.Final out.objective ∧
        t.problem.sink.Billed BoundedTree.fan "cost" [.vertex (.number 7)] out.objective) ∧
    (let _ := TreeAugmentation.triangleBackend
      ∃ (p : TreeAugmentation ℚ) (out : Outcome ℚ) (t : Run (TreeAugmentation ℚ) ℚ),
        Returns (Engine.run TreeAugmentation.policies) { problem := p, lp := p.model } out t ∧
        out.status = .optimal ∧ t.lp.Final out.objective ∧
        t.problem.sink.Billed TreeAugmentation.triangle "cost" [] out.objective ∧
        out.objective = some t.problem.solutionCost) := by
  refine ⟨?_, ?_, ?_⟩
  · let _ := SteinerNetwork.cornerBackend
    let _ : Dice Unit ℚ := Dice.zero
    obtain ⟨p, hp, hrun⟩ := exists_ok
      (SteinerNetwork.make (1 / 10) SteinerNetwork.corner (.ofList SteinerNetwork.cornerNeeds)
        "cost" [.vertex (.number 7)] .first ())
      (fun p => yields (Engine.run SteinerNetwork.policies) { problem := p, lp := p.model }
        fun out => out.status = .optimal) (by
        rw [SteinerNetwork.make, SteinerNetwork.prune_corner]
        decide +kernel)
    obtain ⟨out, t, h, ho⟩ := exists_returns hrun
    have ho : out.status = .optimal := by simpa using ho
    obtain ⟨hall, hbill⟩ := report_is_cost (K := ℚ) (S := Unit) (Solver.trying_truthful _)
    exact ⟨p, out, t, h, ho,
      hall _ _ _ t out (fun h => (Oracle.feasible_still h).1)
        SteinerNetwork.policies_committing.standard h ho,
      (hbill _ _ _ _).1 _ _ _ p _ _ t out hp SteinerNetwork.policies_committing rfl rfl rfl h ho⟩
  · let _ := BoundedTree.fanBackend
    let _ : Dice Unit ℚ := Dice.zero
    obtain ⟨p, hp, hrun⟩ := exists_ok
      (BoundedTree.make (1 / 10) BoundedTree.fan [(.number 1, 2)] "cost" [.vertex (.number 7)]
        .first ())
      (fun p => yields (Engine.run BoundedTree.policies) { problem := p, lp := p.model }
        fun out => out.status = .optimal) (by decide +kernel)
    obtain ⟨out, t, h, ho⟩ := exists_returns hrun
    have ho : out.status = .optimal := by simpa using ho
    obtain ⟨hall, hbill⟩ := report_is_cost (K := ℚ) (S := Unit) (Solver.trying_truthful _)
    exact ⟨p, out, t, h, ho,
      hall _ _ _ t out (fun h => (Oracle.feasible_still h).1)
        BoundedTree.policies_committing.standard h ho,
      (hbill _ _ _ _).2.1 _ _ _ p _ _ t out hp BoundedTree.policies_committing rfl rfl rfl h ho⟩
  · let _ := TreeAugmentation.triangleBackend
    let _ : Dice Unit ℚ := Dice.zero
    obtain ⟨p, hp, hrun⟩ := exists_ok
      (TreeAugmentation.make (1 / 10) TreeAugmentation.triangle "tree" "cost" [])
      (fun p => yields (Engine.run TreeAugmentation.policies) { problem := p, lp := p.model }
        fun out => out.status = .optimal) (by decide +kernel)
    obtain ⟨out, t, h, ho⟩ := exists_returns hrun
    have ho : out.status = .optimal := by simpa using ho
    obtain ⟨hall, hbill⟩ := report_is_cost (K := ℚ) (S := Unit) (Solver.trying_truthful _)
    obtain ⟨hsink, hcost⟩ := (hbill _ _ _ _).2.2 _ p _ _ t out hp
      TreeAugmentation.policies_committing rfl rfl rfl h ho
    exact ⟨p, out, t, h, ho,
      hall _ _ _ t out (fun h => (TreeAugmentation.tidy.feasible h).1)
        TreeAugmentation.policies_committing.standard h ho, hsink, hcost⟩

end LPRounding
