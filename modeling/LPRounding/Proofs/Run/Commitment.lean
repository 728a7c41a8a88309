import LPRounding.Proofs.Run.Aloof
import LPRounding.Proofs.BoundedTree.Answer
import LPRounding.Proofs.SteinerNetwork.Answer
import LPRounding.Proofs.TreeAugmentation.Answer

/-!
The answers of the problems that commit while a run goes on. At each point of a run the answer lists
the elements of the columns at one in the order in which they were fixed, and what such a problem
counts beside it agrees; a run that is lost leaves what it found.
-/

namespace LPRounding

set_option linter.unusedSectionVars false

variable {K S : Type} [Field K] [LinearOrder K] [IsStrictOrderedRing K] [FloorRing K]

structure Sink.Lists (sink : Sink) (start : List Choice) (names : List EdgeName) (js : List Nat)
    (es : List EdgeName) : Prop where
  names : js.map (names[·]?) = es.map some
  entries : sink.entries = start ++ es.map .edge
  kept : sink.kept = start.length

namespace Sink.Lists

variable {sink : Sink} {start : List Choice} {names es : List EdgeName} {js : List Nat}

theorem ofList (start : List Choice) (names : List EdgeName) :
    (Sink.ofList start).Lists start names [] [] :=
  ⟨rfl, by simp [Sink.ofList], rfl⟩

theorem push {j : Nat} {e : EdgeName} (h : sink.Lists start names js es)
    (he : names[j]? = some e) : (sink.push (.edge e)).Lists start names (js ++ [j]) (es ++ [e]) :=
  ⟨by simp [h.names, he], by simp [Sink.push, h.entries], h.kept⟩

theorem withdraw (h : sink.Lists start names js es) : sink.withdraw.entries = start := by
  simp [Sink.withdraw, h.entries, h.kept]

end Sink.Lists

namespace Engine

/-- The elements of the columns at one, in the order in which these were fixed. -/
structure Elements {P : Type} (names : List EdgeName) (s : Run P K) (es : List EdgeName) : Prop
    where
  nodup : (taken s.trace).Nodup
  mem : ∀ j, j ∈ taken s.trace ↔ s.lp.fixedAt j = some 1
  names : (taken s.trace).map (names[·]?) = es.map some

/-- At every point of a run from `s` but a lost end `handed` holds, and a lost end is `restored`;
every end is such a point. -/
def Disciplined [Backend K] {P : Type} [Roundable P K] (p : Policies P K)
    (rule : Nat → Action P K (Option K)) (s : Run P K) (handed : Run P K → Prop)
    (restored : P → Prop) : Prop :=
  (∀ stage t, Reached p rule s stage t →
    (¬ stage.IsLost → handed t) ∧ (stage.IsLost → restored t.problem)) ∧
  ∀ out t, Returns (run p) s out t → Reached p rule s (.ended out) t

theorem disciplined [Backend K] {P : Type} [Roundable P K] {p : Policies P K}
    {rule : Nat → Action P K (Option K)} {same : P → P → Prop} {tells : P → List Nat → Prop}
    {s : Run P K} {handed : Run P K → Prop} {restored : P → Prop} (hr : Records rule same tells)
    (ha : p.Aloof same) (hp : p.rounding = .perColumn rule) (hs : Account tells s)
    (handing : ∀ t, Account tells t → handed t)
    (restoring : ∀ {q js}, tells q js → restored (Roundable.discard q)) :
    Disciplined p rule s handed restored := by
  refine ⟨fun stage t h => ?_, fun out t => reached_of_run hp⟩
  rcases reached_accounted hr ha hs h with ⟨hn, ht⟩ | ⟨hl, u, hu, hq⟩
  · exact ⟨fun _ => handing t ht, fun hl => absurd hl hn⟩
  · exact ⟨fun hn => absurd hl hn, fun _ => hq ▸ restoring hu.problem⟩

theorem account_start {P : Type} {tells : P → List Nat → Prop} {s : Run P K}
    (hm : ∀ c ∈ s.lp.columns, c.fixed = none) (ht : taken s.trace = [])
    (hs : tells s.problem []) : Account tells s := by
  refine ⟨ht ▸ List.nodup_nil, fun j => ?_, ht ▸ hs⟩
  have hopen : s.lp.fixedAt j = none :=
    Option.bind_eq_none_iff.mpr fun c hc => hm c (List.mem_of_getElem? hc)
  simp [ht, hopen]

end Engine

namespace SteinerNetwork

def Tells (p : SteinerNetwork K S) (start : List Choice) (q : SteinerNetwork K S) (js : List Nat) :
    Prop :=
  q.edges = p.edges ∧ ∃ es, q.sink.Lists start (p.edges.map Edge.name) js es

theorem records [Backend K] [Dice S K] (p : SteinerNetwork K S) (start : List Choice) :
    Engine.Records RoundRule.commitHalf.apply home.Apart (p.Tells start) where
  commits := RoundRule.commits_commitHalf
  same := by
    rintro q _ js ⟨o, rfl⟩ h
    exact h
  commit := by
    rintro s t j js hc ⟨hq, es, h⟩
    obtain ⟨e, he, rfl⟩ := returns_commit hc
    have hname : (p.edges.map Edge.name)[j]? = some e.name := by
      rw [hq] at he
      simp [he]
    exact ⟨⟨hq, _, h.push hname⟩, rfl, rfl⟩

theorem policies_aloof [Backend K] [Dice S K] :
    (policies : Policies (SteinerNetwork K S) K).Aloof home.Apart := by
  have hrefl (q : SteinerNetwork K S) : home.Apart q q := ⟨q.oracle, rfl⟩
  have hrows : (SolveRule.generating.apply : Action (SteinerNetwork K S) K _).Aloof home.Apart :=
    SolveRule.aloof hrefl (.trans fun _ _ _ => rfl) Oracle.aloof_feasible Oracle.aloof_separate _
  exact ⟨hrows, hrows, fun _ => Action.aloof_pure hrefl _, StopRule.aloof hrefl .allFixed,
    Action.aloof_pure hrefl _⟩

end SteinerNetwork

namespace BoundedTree

def Tells (p : BoundedTree K S) (start : List Choice) (q : BoundedTree K S) (js : List Nat) :
    Prop :=
  q.edges = p.edges ∧ ∃ es, q.sink.Lists start (p.edges.map Edge.name) js es ∧
    q.committed = es.map fun e => (e.u, e.v)

theorem records [Backend K] [Dice S K] (p : BoundedTree K S) (start : List Choice) :
    Engine.Records RoundRule.commitOne.apply home.Apart (p.Tells start) where
  commits := RoundRule.commits_commitOne
  same := by
    rintro q _ js ⟨o, rfl⟩ h
    exact h
  commit := by
    rintro s t j js hc ⟨hq, es, h, hdeg⟩
    obtain ⟨e, he, rfl⟩ := returns_commit hc
    have hname : (p.edges.map Edge.name)[j]? = some e.name := by
      rw [hq] at he
      simp [he]
    exact ⟨⟨hq, _, h.push hname, by simp [hdeg]⟩, rfl, rfl⟩

theorem aloof_relaxable (row : Nat) :
    (relaxable row : Action (BoundedTree K S) K Bool).Aloof home.Apart :=
  Action.aloof_of_eq (fun q => ⟨q.oracle, rfl⟩) fun h => (returns_relaxable h).1

theorem policies_aloof [Backend K] [Dice S K] :
    (policies : Policies (BoundedTree K S) K).Aloof home.Apart := by
  have hrefl (q : BoundedTree K S) : home.Apart q q := ⟨q.oracle, rfl⟩
  have hrows : (SolveRule.generating.apply : Action (BoundedTree K S) K _).Aloof home.Apart :=
    SolveRule.aloof hrefl (.trans fun _ _ _ => rfl) Oracle.aloof_feasible Oracle.aloof_separate _
  exact ⟨hrows, hrows, aloof_relaxable, StopRule.aloof hrefl .allFixed, Action.aloof_pure hrefl _⟩

end BoundedTree

namespace TreeAugmentation

def Tells (p : TreeAugmentation K) (start : List Choice) (q : TreeAugmentation K) (js : List Nat) :
    Prop :=
  q.links = p.links ∧ q.sink.Lists start (p.links.map TreeLink.name) js q.chosen ∧
    q.solutionCost = (js.map fun j => (p.links[j]?.map TreeLink.cost).getD 0).sum

theorem records (p : TreeAugmentation K) (start : List Choice) :
    Engine.Records RoundRule.commitHalf.apply Eq (p.Tells start) where
  commits := RoundRule.commits_commitHalf
  same := by
    rintro q _ js rfl h
    exact h
  commit := by
    rintro s t j js hc ⟨hq, h, hcost⟩
    obtain ⟨l, hl, rfl⟩ := returns_commit hc
    rw [hq] at hl
    have hname : (p.links.map TreeLink.name)[j]? = some l.name := by simp [hl]
    exact ⟨⟨hq, h.push hname, by simp [hcost, hl]⟩, rfl, rfl⟩

theorem solutionCost_of_make {ε : K} {g : Graph K} {mark costName : String}
    {entries : List Choice} {p : TreeAugmentation K}
    (h : make ε g mark costName entries = .ok p) : p.solutionCost = 0 := by
  simp only [make] at h
  split at h
  · cases h
  obtain ⟨tol, -, h⟩ := ok_bind_iff.mp h
  obtain rfl := Except.ok.inj h
  rfl

theorem policies_aloof [Backend K] : (policies : Policies (TreeAugmentation K) K).Aloof Eq := by
  refine ⟨Action.aloof_solveModel fun _ => rfl, Action.aloof_solveModel fun _ => rfl, ?_,
    StopRule.aloof (fun _ => rfl) .allFixed, Action.aloof_pure (fun _ => rfl) _⟩
  intro i
  refine Action.aloof_of_eq (fun _ => rfl) fun {s b t} h => ?_
  simp only [policies, returns_bind, Action.returns_problem, returns_pure] at h
  obtain ⟨_, _, ⟨rfl, rfl⟩, -, rfl⟩ := h
  rfl

end TreeAugmentation

/-- Whatever policies stand beside the rounding rule of a problem, its answer and its counts follow
the columns that were fixed at one, and a lost run hands over nothing. -/
theorem answer_follows_columns [Backend K] [Dice S K] {ε : K} {g : Graph K} {costName : String}
    {entries : List Choice} :
    (∀ (needs : Requirements K) (strategy : Strategy) (dice : S) (p : SteinerNetwork K S)
      (pol : Policies (SteinerNetwork K S) K) (s : Run (SteinerNetwork K S) K),
      SteinerNetwork.make ε g needs costName entries strategy dice = .ok p →
      pol.rounding = .perColumn RoundRule.commitHalf.apply → pol.Aloof SteinerNetwork.home.Apart →
      s.problem = p → s.lp = p.model → taken s.trace = [] →
      Engine.Disciplined pol RoundRule.commitHalf.apply s
        (fun t => ∃ es, Engine.Elements (g.edges.map Edge.name) t es ∧
          t.problem.sink.entries = entries ++ es.map .edge)
        (fun q => q.sink.entries = entries)) ∧
    (∀ (bounds : List (Node × Int)) (strategy : Strategy) (dice : S) (p : BoundedTree K S)
      (pol : Policies (BoundedTree K S) K) (s : Run (BoundedTree K S) K),
      BoundedTree.make ε g bounds costName entries strategy dice = .ok p →
      pol.rounding = .perColumn RoundRule.commitOne.apply → pol.Aloof BoundedTree.home.Apart →
      s.problem = p → s.lp = p.model → taken s.trace = [] →
      Engine.Disciplined pol RoundRule.commitOne.apply s
        (fun t => ∃ es, Engine.Elements (g.edges.map Edge.name) t es ∧
          t.problem.sink.entries = entries ++ es.map .edge ∧
          ∀ v, t.problem.committedDegree v =
            es.countP (fun e => e.u = v) + es.countP fun e => e.v = v)
        (fun q => q.sink.entries = entries ∧ ∀ v, q.committedDegree v = 0)) ∧
    ∀ (mark : String) (p : TreeAugmentation K) (pol : Policies (TreeAugmentation K) K)
      (s : Run (TreeAugmentation K) K),
      TreeAugmentation.make ε g mark costName entries = .ok p →
      pol.rounding = .perColumn RoundRule.commitHalf.apply → pol.Aloof Eq →
      s.problem = p → s.lp = p.model → taken s.trace = [] →
      Engine.Disciplined pol RoundRule.commitHalf.apply s
        (fun t => ∃ es, Engine.Elements (p.links.map TreeLink.name) t es ∧
          t.problem.sink.entries = entries ++ es.map .edge ∧
          (∀ l, t.problem.isChosen l = true ↔ l ∈ es) ∧
          t.problem.solutionCost =
            ((taken t.trace).map fun j => (p.links[j]?.map TreeLink.cost).getD 0).sum)
        (fun q => q.sink.entries = entries ∧ (∀ l, q.isChosen l = false) ∧
          q.solutionCost = 0) := by
  refine ⟨?_, ?_, ?_⟩
  · intro needs strategy dice p pol s hmake hp ha hs hm ht
    obtain ⟨-, hedges, -, -, -, -, hsink⟩ := SteinerNetwork.make_eq_ok hmake
    rw [← hedges]
    refine Engine.disciplined (p.records entries) ha hp
      (Engine.account_start (by simp [hm, SteinerNetwork.model, SteinerNetwork.column]) ht ?_) ?_ ?_
    · rw [hs]
      exact ⟨rfl, [], hsink ▸ .ofList entries _⟩
    · rintro t ⟨hn, hmem, -, es, h⟩
      exact ⟨es, ⟨hn, hmem, h.names⟩, h.entries⟩
    · rintro q js ⟨-, es, h⟩
      exact h.withdraw
  · intro bounds strategy dice p pol s hmake hp ha hs hm ht
    obtain ⟨-, hedges, -, -, -, hsink, hcommitted⟩ := BoundedTree.make_eq_ok hmake
    rw [← hedges]
    refine Engine.disciplined (p.records entries) ha hp
      (Engine.account_start (by simp [hm, BoundedTree.model, BoundedTree.column]) ht ?_) ?_ ?_
    · rw [hs]
      exact ⟨rfl, [], hsink ▸ .ofList entries _, hcommitted⟩
    · rintro t ⟨hn, hmem, -, es, h, hdeg⟩
      refine ⟨es, ⟨hn, hmem, h.names⟩, h.entries, fun v => ?_⟩
      simp [BoundedTree.committedDegree, degree, hdeg, List.countP_eq_length_filter,
        List.filter_map, Function.comp_def]
    · rintro q js ⟨-, es, h, -⟩
      exact ⟨h.withdraw, fun v => rfl⟩
  · intro mark p pol s hmake hp ha hs hm ht
    obtain ⟨-, -, -, -, hsink, hchosen, -⟩ := TreeAugmentation.make_eq_ok hmake
    have hcost := TreeAugmentation.solutionCost_of_make hmake
    refine Engine.disciplined (p.records entries) ha hp
      (Engine.account_start (by simp [hm, TreeAugmentation.model, TreeAugmentation.column]) ht ?_)
      ?_ ?_
    · rw [hs]
      exact ⟨rfl, hsink ▸ hchosen ▸ .ofList entries _, by simpa using hcost⟩
    · rintro t ⟨hn, hmem, -, h, hcost⟩
      refine ⟨_, ⟨hn, hmem, h.names⟩, h.entries, fun l => ?_, hcost⟩
      simp [TreeAugmentation.isChosen]
    · rintro q js ⟨-, h, -⟩
      exact ⟨h.withdraw, fun l => rfl, rfl⟩

theorem answers_followed :
    (let _ := SteinerNetwork.cornerBackend
      let _ : Dice Unit ℚ := Dice.zero
      ∃ (p : SteinerNetwork ℚ Unit) (out : Outcome ℚ) (t : Run (SteinerNetwork ℚ Unit) ℚ)
        (es : List EdgeName),
        Returns (Engine.run SteinerNetwork.policies) { problem := p, lp := p.model } out t ∧
        out.status = .optimal ∧
        Engine.Elements (SteinerNetwork.corner.edges.map Edge.name) t es ∧
        t.problem.sink.entries = [.vertex (.number 7)] ++ es.map .edge) ∧
    (let _ := BoundedTree.fanBackend
      let _ : Dice Unit ℚ := Dice.zero
      ∃ (p : BoundedTree ℚ Unit) (out : Outcome ℚ) (t : Run (BoundedTree ℚ Unit) ℚ)
        (es : List EdgeName),
        Returns (Engine.run BoundedTree.policies) { problem := p, lp := p.model } out t ∧
        out.status = .optimal ∧
        Engine.Elements (BoundedTree.fan.edges.map Edge.name) t es ∧
        t.problem.sink.entries = [.vertex (.number 7)] ++ es.map .edge) ∧
    (let _ := TreeAugmentation.triangleBackend
      ∃ (p : TreeAugmentation ℚ) (pol : Policies (TreeAugmentation ℚ) ℚ) (out : Outcome ℚ)
        (t : Run (TreeAugmentation ℚ) ℚ),
        TreeAugmentation.policies.replace { resolve := some (.failAfter 0 .plain) } = .ok pol ∧
        Returns (Engine.run pol) { problem := p, lp := p.model } out t ∧
        out.status = .infeasible ∧ taken t.trace = [0] ∧
        t.problem.sink.entries = [.vertex (.number 7)] ∧ t.problem.solutionCost = 0) := by
  refine ⟨?_, ?_, ?_⟩
  · let _ := SteinerNetwork.cornerBackend
    let _ : Dice Unit ℚ := Dice.zero
    obtain ⟨p, hp, hrun⟩ := exists_ok
      (SteinerNetwork.make (1 / 10) SteinerNetwork.corner (.ofList SteinerNetwork.cornerNeeds)
        "cost" [.vertex (.number 7)] .first ())
      (fun p => yields (Engine.run SteinerNetwork.policies) { problem := p, lp := p.model }
        fun out => out.status = .optimal) (by
        rw [SteinerNetwork.make, SteinerNetwork.prune_corner]
        decide +kernel)
    obtain ⟨out, t, h, ho⟩ := exists_returns hrun
    have ho : out.status = .optimal := by simpa using ho
    have hd := answer_follows_columns.1 _ _ _ p _ { problem := p, lp := p.model } hp rfl
      SteinerNetwork.policies_aloof rfl rfl rfl
    obtain ⟨es, hes, hsink⟩ := (hd.1 _ t (hd.2 out t h)).1 (by simp [Engine.Stage.IsLost, ho])
    exact ⟨p, out, t, es, h, ho, hes, hsink⟩
  · let _ := BoundedTree.fanBackend
    let _ : Dice Unit ℚ := Dice.zero
    obtain ⟨p, hp, hrun⟩ := exists_ok
      (BoundedTree.make (1 / 10) BoundedTree.fan [(.number 1, 2)] "cost" [.vertex (.number 7)]
        .first ())
      (fun p => yields (Engine.run BoundedTree.policies) { problem := p, lp := p.model }
        fun out => out.status = .optimal) (by decide +kernel)
    obtain ⟨out, t, h, ho⟩ := exists_returns hrun
    have ho : out.status = .optimal := by simpa using ho
    have hd := answer_follows_columns.2.1 _ _ _ p _ { problem := p, lp := p.model } hp rfl
      BoundedTree.policies_aloof rfl rfl rfl
    obtain ⟨es, hes, hsink, -⟩ := (hd.1 _ t (hd.2 out t h)).1 (by simp [Engine.Stage.IsLost, ho])
    exact ⟨p, out, t, es, h, ho, hes, hsink⟩
  · let _ := TreeAugmentation.triangleBackend
    let _ : Dice Unit ℚ := Dice.zero
    obtain ⟨pol, hpol, -⟩ := exists_ok
      ((TreeAugmentation.policies : Policies (TreeAugmentation ℚ) ℚ).replace
        { resolve := some (.failAfter 0 .plain) }) (fun _ => true) rfl
    have hround : pol.rounding = .perColumn RoundRule.commitHalf.apply := by
      obtain rfl := Except.ok.inj hpol
      rfl
    obtain ⟨p, hp, hrun⟩ := exists_ok
      (TreeAugmentation.make (1 / 10) TreeAugmentation.triangle "tree" "cost"
        [.vertex (.number 7)])
      (fun p => yields (do return (← Engine.run pol, ← get)) { problem := p, lp := p.model }
        fun r => r.1.status = .infeasible ∧ taken r.2.trace = [0]) (by
        obtain rfl := Except.ok.inj hpol
        decide +kernel)
    have ha : pol.Aloof Eq := TreeAugmentation.policies_aloof.replace (fun _ => rfl)
      (SolveRule.aloof (fun _ => rfl) (fun _ _ _ => .trans) (Action.aloof_pure (fun _ => rfl) _)
        fun s i t h => by simp [Roundable.separate] at h) hpol
    obtain ⟨⟨out, t⟩, u, h, ho⟩ := exists_returns hrun
    simp only [returns_bind, returns_get, returns_pure] at h
    obtain ⟨_, _, h, _, _, ⟨rfl, rfl⟩, heq, rfl⟩ := h
    obtain ⟨rfl, rfl⟩ := Prod.mk.inj heq
    obtain ⟨ho, ht⟩ := of_decide_eq_true ho
    have hd := (answer_follows_columns (S := Unit)).2.2 _ p pol { problem := p, lp := p.model }
      hp hround ha rfl rfl rfl
    obtain ⟨hsink, -, hcost⟩ := (hd.1 _ _ (hd.2 _ _ h)).2 ⟨_, rfl, ho⟩
    exact ⟨p, pol, _, _, hpol, h, ho, ht, hsink, hcost⟩

end LPRounding
