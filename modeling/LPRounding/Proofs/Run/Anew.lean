import LPRounding.Proofs.Run.Memoryless
import LPRounding.Proofs.Run.Rounds
import LPRounding.Proofs.SteinerTree.Answer

/-!
Dependent runs start anew with each round. The model of a round is what the problem alone makes of
an empty one, so what is left of a run after a rounding step is a run of its own on the problem that
the step has left.
-/

namespace LPRounding

set_option linter.unusedSectionVars false

variable {P K α : Type} [Scalar K]

def Model.Blank (m : Model K) : Prop := m = { name := m.name, direction := m.direction }

theorem Model.blank_new : ({} : Model K).Blank := rfl

def Run.cleared (s : Run P K) : Run P K :=
  { s with lp := { name := s.lp.name, direction := s.lp.direction } }

theorem Action.returns_clear (s : Run P K) : Returns (onModel Model.clear) s () s.cleared :=
  returns_onModel.mpr ⟨_, returns_modify.mpr rfl, rfl⟩

/-- What the action makes of a model without columns and rows is decided by the problem, its name
and direction included. -/
def Action.Builds (init : Action P K Unit) : Prop :=
  ∀ ⦃s t : Run P K⦄, s.problem = t.problem → s.lp.Blank → t.lp.Blank → Alike (init s) (init t)

@[reducible] def Backend.allowing [Backend K] (passes : Nat) : Backend K :=
  { solver := Backend.solver, flow := Backend.flow, passes }

namespace Engine

variable [Roundable P K]

def anew (act : Action P K α) : Action P K α := fun s => act { problem := s.problem }

/-- A run on a new model, with an allowance of so many rounds. -/
def afresh [Backend K] (p : Policies P K) (passes : Nat) : Action P K (Outcome K) := anew do
  p.init
  letI := Backend.allowing (K := K) passes
  runDependent p

/-- Solves once, rounds once if that is called for, and leaves the rest to a run of `q`. -/
def unrolled [Backend K] (p q : Policies P K) (rule : Action P K Unit) (passes : Nat) :
    Action P K (Outcome K) := anew do
  p.init
  match ← solve p with
  | .optimal =>
    if ← p.stop then finish p
    else
      rule
      afresh q passes
  | status =>
    Action.note (.notSolved (← Action.model).name status)
    giveUp

structure Forgets (p : Policies P K) (rule : Action P K Unit) : Prop where
  rounding : p.rounding = .wholePoint rule
  init : p.init.Builds
  rule : rule.Memoryless
  solve : p.solve.Memoryless
  resolve : p.resolve.Memoryless
  stop : p.stop.Memoryless
  setSolution : p.setSolution.Memoryless

/-- What is left of a run after its first solve resolves from the start. -/
def onward (p : Policies P K) : Policies P K := { p with solve := p.resolve }

variable {p : Policies P K} {rule : Action P K Unit}

open LPRounding.Action

theorem silent_report (st : Status) : Silent (report st : Action P K Unit) := by
  intro s
  refine ⟨(), { s with trace := s.trace ++ [.solved s.lp.name st
    (s.lp.solution.map Solution.objective) s.lp.columns.length s.lp.rows.length] }, ?_, rfl, rfl⟩
  simp only [report, returns_bind, returns_model, returns_note]
  exact ⟨_, _, ⟨rfl, rfl⟩, rfl⟩

theorem silent_beginIteration : Silent (beginIteration : Action P K Nat) := by
  intro s
  refine ⟨s.iterations + 1, { s with iterations := s.iterations + 1 }, ?_, rfl, rfl⟩
  simp only [beginIteration, returns_bind, returns_modify, returns_get, returns_pure]
  exact ⟨(), _, rfl, _, _, ⟨rfl, rfl⟩, rfl, rfl⟩

theorem memoryless_giveUp : Memoryless (giveUp : Action P K (Outcome K)) := by
  refine Same.bind (memoryless_modify fun s t h => ?_) fun _ => memoryless_pure _
  exact ⟨congrArg Roundable.discard h.1, h.2⟩

theorem dependentRound_eq (hp : p.rounding = .wholePoint rule) :
    dependentRound p = (do rule; onModel Model.clear; p.init) := by
  simp only [dependentRound, hp]

namespace Forgets

variable (k : Forgets p rule)

include k

theorem finish : Memoryless (Engine.finish p) :=
  k.setSolution.bind fun _ => memoryless_model.bind fun _ => (memoryless_lift _).bind fun _ =>
    silent_get.both silent_get fun _ _ => (silent_note _).both (silent_note _) fun _ _ =>
      memoryless_pure _

theorem settle_zero : Memoryless (settle p 0) :=
  k.solve.bind fun st => (silent_report st).both (silent_report st) fun _ _ => memoryless_pure _

theorem settle_succ (n m : Nat) : Same (settle p (n + 1)) (settle (onward p) m) := by
  have hm : asked (onward p) m = p.resolve := by cases m <;> rfl
  unfold settle
  rw [hm]
  exact k.resolve.bind fun st => (silent_report st).both (silent_report st) fun _ _ =>
    memoryless_pure _

theorem anew_init : Memoryless (anew p.init) :=
  fun _ _ h => k.init h.1.symm Model.blank_new Model.blank_new

theorem rebuild : Same (do onModel Model.clear; p.init) (anew p.init) := by
  intro s t h
  rw [(returns_clear s).bind_apply]
  exact k.init h.1.symm rfl rfl

theorem memoryless_rebuild : Memoryless (do onModel Model.clear; p.init) := by
  intro s t h
  rw [(returns_clear s).bind_apply, (returns_clear t).bind_apply]
  exact k.init h.1.symm rfl rfl

theorem turn_eq : Engine.turn p = beginIteration >>= fun i => rule >>= fun _ =>
    (do onModel Model.clear; p.init) >>= fun _ => model >>= fun m =>
      note (.rebuilt i m.name m.columns.length) := by
  simp only [Engine.turn, dependentRound_eq k.rounding, bind_assoc]

theorem turn : Memoryless (Engine.turn p) := by
  rw [k.turn_eq]
  refine silent_beginIteration.both silent_beginIteration fun i j => k.rule.bind fun _ => ?_
  exact k.memoryless_rebuild.bind fun _ => memoryless_model.bind fun m => same_note _ _

theorem turn_left {next next' : Action P K α} (h : Same next next') :
    Same (do Engine.turn p; next) (do rule; anew p.init; next') := by
  have heq : (do Engine.turn p; next) = beginIteration >>= fun i => rule >>= fun _ =>
      (do onModel Model.clear; p.init) >>= fun _ => model >>= fun m =>
        note (.rebuilt i m.name m.columns.length) >>= fun _ => next := by
    rw [k.turn_eq]
    simp only [bind_assoc]
  rw [heq]
  refine silent_beginIteration.left fun i => k.rule.bind fun _ => k.rebuild.bind fun _ => ?_
  exact silent_model.left fun m => (silent_note _).left fun _ => h

theorem resume (n m passes : Nat) (st : Status) :
    Same (resume p (n + 1) passes st) (resume (onward p) m passes st) := by
  have hlost {n m : Nat} (st : Status) :
      Same (do note (failure (n == 0) st (← get)); giveUp : Action P K (Outcome K))
        (do note (failure (m == 0) st (← get)); giveUp) :=
    silent_get.both silent_get fun _ _ => (silent_note _).both (silent_note _) fun _ _ =>
      memoryless_giveUp
  induction passes generalizing n m st with
  | zero =>
    cases st with
    | optimal => exact memoryless_throw _
    | infeasible | unbounded => exact hlost _
  | succ passes ih =>
    cases st with
    | optimal =>
      rw [resume_succ, resume_succ]
      refine k.stop.bind fun b => ?_
      split
      · exact k.finish
      · exact k.turn.bind fun _ => (k.settle_succ _ _).bind fun st => ih _ _ st
    | infeasible | unbounded => exact hlost _

variable [Backend K]

omit k in
theorem afresh_eq (p : Policies P K) (passes : Nat) :
    afresh p passes = anew p.init >>= fun _ => Engine.settle p 0 >>= Engine.resume p 0 passes := by
  rw [afresh]
  simp only [runDependent_eq]
  rfl

/-- A run is one round and then a run of its own. -/
theorem unroll (passes : Nat) :
    Same (afresh p (passes + 1)) (unrolled p (onward p) rule passes) := by
  have heq : unrolled p (onward p) rule passes =
      anew p.init >>= fun _ => Engine.settle p 0 >>= fun st => match st with
        | .optimal =>
          (do if ← p.stop then Engine.finish p else (do rule; afresh (onward p) passes))
        | status => (do note (.notSolved (← model).name status); giveUp) := rfl
  rw [heq, afresh_eq]
  refine k.anew_init.bind fun _ => k.settle_zero.bind fun st => ?_
  cases st with
  | optimal =>
    rw [resume_succ, afresh_eq]
    refine k.stop.bind fun b => ?_
    split
    · exact k.finish
    · exact k.turn_left ((k.settle_succ _ _).bind fun st => k.resume _ _ _ st)
  | infeasible | unbounded =>
    exact silent_get.both silent_model fun _ _ => (silent_note _).both (silent_note _) fun _ _ =>
      memoryless_giveUp

end Forgets

variable {s t : Run P K}

/-- Before a resolve the model is the one of the problem that the rounding step has left. -/
theorem Forgets.built (k : Forgets p rule) {n : Nat} (h : Turns p s (.built (n + 1)) t) :
    ∃ u v w b, Turns p s (.solved n .optimal) u ∧ Returns p.stop u false v ∧
      Returns rule { v with iterations := v.iterations + 1 } () w ∧
      Returns p.init { problem := w.problem } () b ∧ b.Agree t := by
  obtain heq | ⟨⟨phase, u⟩, hu, hlast⟩ := Relation.ReflTransGen.cases_tail h
  · cases heq
  cases hlast with
  | @round _ _ v _ hb hv =>
    rw [k.turn_eq] at hv
    obtain ⟨i, x, hx, hv⟩ := returns_bind.mp hv
    obtain ⟨_, w, hw, hv⟩ := returns_bind.mp hv
    obtain ⟨_, y, hy, hv⟩ := returns_bind.mp hv
    obtain ⟨m, z, hz, hv⟩ := returns_bind.mp hv
    obtain ⟨rfl, rfl⟩ := returns_model.mp hz
    obtain rfl := returns_note.mp hv
    simp only [beginIteration, returns_bind, returns_modify, returns_get, returns_pure] at hx
    obtain ⟨_, _, rfl, _, _, ⟨rfl, rfl⟩, -, rfl⟩ := hx
    obtain ⟨b, hb', hagree⟩ := (k.rebuild (s := w) (t := w) ⟨rfl, rfl⟩).returns hy
    exact ⟨u, v, w, b, hu, hb, hw, hb', hagree.symm⟩

def Remains [Backend K] (p : Policies P K) (s : Run P K) : Phase K × Run P K → Prop
  | (.built n, u) => n ≤ Backend.passes K →
    runDependent p s = (settle p n >>= resume p n (Backend.passes K - n)) u
  | (.solved n st, u) => n ≤ Backend.passes K →
    runDependent p s = resume p n (Backend.passes K - n) st u
  | (.ended _, _) => True

theorem Turns.remains [Backend K] {phase : Phase K} (h : Turns p s phase t) :
    Remains p s (phase, t) := by
  have hall {x : Phase K × Run P K} (hx : Relation.ReflTransGen (Turn p) (.built 0, s) x) :
      Remains p s x := by
    induction hx with
    | refl => exact fun _ => by rw [runDependent_eq, Nat.sub_zero]
    | tail _ hxy ih =>
      cases hxy with
      | solve hv => exact fun hn => (ih hn).trans (hv.bind_apply _)
      | @round u v w n hb hv =>
        intro hn
        have hpasses : Backend.passes K - n = Backend.passes K - (n + 1) + 1 := by omega
        rw [ih (by omega), hpasses, resume_succ, hb.bind_apply]
        exact hv.bind_apply _
      | finish | lose => trivial
  exact hall h

theorem returns_lost (p : Policies P K) (n passes : Nat) {st : Status} (hst : st ≠ .optimal)
    (s : Run P K) :
    ∃ u, Returns (resume p n passes st) s { status := .infeasible, objective := none } u ∧
      u.problem = Roundable.discard s.problem := by
  refine ⟨{ s with problem := Roundable.discard s.problem,
                   trace := s.trace ++ [failure (n == 0) st s] }, ?_, rfl⟩
  cases st with
  | optimal => exact absurd rfl hst
  | infeasible | unbounded =>
    simp only [resume, giveUp, returns_bind, returns_get, returns_note, returns_modify, returns_pure]
    exact ⟨_, _, ⟨rfl, rfl⟩, (), _, rfl, (), _, rfl, trivial, rfl⟩

variable [Backend K]

/-- A dependent run carries nothing from one round to the next but the problem. After its first
round it is a new run on the problem that is left. Where both solve policies are plain or both
generate rows, that is a run with the same bundle. A mixed bundle goes onward: the first solve of
the new run is by the rule for resolves already. Whatever the bundle, a run that a solve ends
withdraws its answer once. -/
theorem runDependent_starts_anew {way way' : SolveRule} (hround : p.rounding = .wholePoint rule)
    (hsolve : p.solve = way.apply) (hresolve : p.resolve = way'.apply) (hinit : p.init.Builds)
    (hrule : rule.Memoryless) (hstop : p.stop.Memoryless) (hset : p.setSolution.Memoryless)
    (hfeasible : (Roundable.feasible : Action P K Bool).Memoryless)
    (hseparate : (Roundable.separate : Action P K Nat).Memoryless) :
    (∀ s n t, Turns p s (.built (n + 1)) t →
      ∃ u v w b, Turns p s (.solved n .optimal) u ∧ Returns p.stop u false v ∧
        Returns rule { v with iterations := v.iterations + 1 } () w ∧
        Returns p.init { problem := w.problem } () b ∧ b.Agree t) ∧
    (∀ passes q, Alike (afresh p (passes + 1) { problem := q })
      (unrolled p (onward p) rule passes { problem := q })) ∧
    (way = way' → ∀ passes q,
      Alike (afresh p (passes + 1) { problem := q }) (unrolled p p rule passes { problem := q })) ∧
    ∀ s n st t, Turns p s (.solved n st) t → st ≠ .optimal → n ≤ Backend.passes K →
      ∃ u, Returns (runDependent p) s { status := .infeasible, objective := none } u ∧
        u.problem = Roundable.discard t.problem := by
  have k : Forgets p rule :=
    { rounding := hround, init := hinit, rule := hrule, stop := hstop, setSolution := hset
      solve := hsolve ▸ memoryless_solveRule hfeasible hseparate way
      resolve := hresolve ▸ memoryless_solveRule hfeasible hseparate way' }
  have hunroll (passes : Nat) (q : P) : Alike (afresh p (passes + 1) { problem := q })
      (unrolled p (onward p) rule passes { problem := q }) :=
    k.unroll passes ⟨rfl, rfl⟩
  refine ⟨fun s n t h => k.built h, hunroll, fun hway passes q => ?_, fun s n st t h hst hn => ?_⟩
  · have hsame : p.resolve = p.solve := by rw [hresolve, ← hway, ← hsolve]
    have honward : onward p = p :=
      congrArg (fun act => ({ p with solve := act } : Policies P K)) hsame
    have h := hunroll passes q
    rwa [honward] at h
  · obtain ⟨u, hu, hproblem⟩ := returns_lost p n (Backend.passes K - n) hst t
    exact ⟨u, (h.remains hn).trans hu, hproblem⟩

end Engine

namespace SteinerTree

open LPRounding.Action

variable {S : Type}

theorem builds : Action.Builds (build : Action (SteinerTree K S) K Unit) := by
  intro s t h _ _
  have hbuild (u : Run (SteinerTree K S) K) : build u = match u.problem.generate with
      | .ok q => .ok () { u with problem := q, lp := model q.components }
      | .error e => .error e u := by
    unfold build
    rw [(returns_problem.mpr ⟨rfl, rfl⟩ : Returns Action.problem u u.problem u).bind_apply]
    cases u.problem.generate <;> rfl
  rw [hbuild, hbuild, h]
  cases t.problem.generate with
  | ok q => exact .ok ⟨rfl, rfl⟩
  | error e => exact .error h.symm

theorem memoryless_pick [Dice S K] : Memoryless (pick : Action (SteinerTree K S) K Unit) := by
  refine memoryless_problem.bind fun p => memoryless_model.bind fun m =>
    (memoryless_lift _).bind fun xs => (memoryless_onProblem _).bind fun i => ?_
  split
  · exact memoryless_throw _
  · refine (same_note _ _).bind fun _ => Same.bind (memoryless_modify fun s t h => ?_) fun _ =>
      memoryless_onProblem _
    exact ⟨congrArg (take _) h.1, h.2⟩

end SteinerTree

open SteinerTree LPRounding.Action in
/-- A run of the broom, which generates rows in all rounds, and one that generates none in its first
round: the latter goes on as the former. -/
theorem SteinerTree.broom_starts_anew :
    let _ := broomBackend
    let _ : Dice (List Nat) ℚ := Dice.listed
    let mixed : Policies (SteinerTree ℚ (List Nat)) ℚ :=
      { policies with solve := SolveRule.plain.apply }
    ∃ p : SteinerTree ℚ (List Nat),
      make (1 / 10) broom broomTerminals none "cost" 3 [] .first [] [12, 0] = .ok p ∧
      ∀ passes,
        Alike (Engine.afresh policies (passes + 1) { problem := p })
          (Engine.unrolled policies policies pick passes { problem := p }) ∧
        Alike (Engine.afresh mixed (passes + 1) { problem := p })
          (Engine.unrolled mixed policies pick passes { problem := p }) := by
  intro _ _ mixed
  obtain ⟨p, hp, -⟩ := exists_ok
    (make (1 / 10) broom broomTerminals none "cost" 3 [] .first [] ([12, 0] : List Nat))
    (fun _ => true) (by decide +kernel)
  have hsolve : (policies (K := ℚ) (S := List Nat)).solve = SolveRule.generating.apply := rfl
  have hplain : mixed.solve = SolveRule.plain.apply := rfl
  have hresolve : mixed.resolve = SolveRule.generating.apply := rfl
  have hstop : (policies (K := ℚ) (S := List Nat)).stop.Memoryless :=
    memoryless_problem.bind fun _ => memoryless_pure _
  have hmatched := Engine.runDependent_starts_anew rfl hsolve hsolve builds memoryless_pick hstop
    (memoryless_pure _) (Oracle.memoryless_feasible _ _ _) (Oracle.memoryless_separate _ _)
  have hmixed := Engine.runDependent_starts_anew rfl hplain hresolve builds memoryless_pick hstop
    (memoryless_pure _) (Oracle.memoryless_feasible _ _ _) (Oracle.memoryless_separate _ _)
  exact ⟨p, hp, fun passes => ⟨hmatched.2.2.1 rfl passes p, hmixed.2.1 passes p⟩⟩

end LPRounding
