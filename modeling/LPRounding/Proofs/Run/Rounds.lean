import LPRounding.Proofs.Run.Stages
import LPRounding.Proofs.Ends

/-!
The rounds of a dependent run. Each round solves the model that was built for it; after an optimal
point the stop policy ends the run, or the problem is changed and the next model is built. A run
whose rounds all have an optimal point, and each of which leaves less to do, comes to an end.
-/

namespace LPRounding

namespace Engine

set_option linter.unusedSectionVars false

inductive Phase (K : Type) where
  /-- The model of a round is built. -/
  | built (round : Nat)
  | solved (round : Nat) (status : Status)
  | ended (out : Outcome K)

variable {P K : Type} [Scalar K] [Roundable P K]

def asked (p : Policies P K) : Nat → Action P K Status
  | 0 => p.solve
  | _ + 1 => p.resolve

def settle (p : Policies P K) (n : Nat) : Action P K Status := do
  let status ← asked p n
  report status
  return status

def turn (p : Policies P K) : Action P K Unit := do
  let iteration ← beginIteration
  dependentRound p
  let m ← Action.model
  Action.note (.rebuilt iteration m.name m.columns.length)

/-- One operation of a dependent run. -/
inductive Turn (p : Policies P K) : Phase K × Run P K → Phase K × Run P K → Prop where
  | solve {s t : Run P K} {n : Nat} {st : Status} : Returns (settle p n) s st t →
      Turn p (.built n, s) (.solved n st, t)
  | round {s t u : Run P K} {n : Nat} : Returns p.stop s false u → Returns (turn p) u () t →
      Turn p (.solved n .optimal, s) (.built (n + 1), t)
  | finish {s t u : Run P K} {n : Nat} {out : Outcome K} : Returns p.stop s true u →
      Returns (Engine.finish p) u out t → Turn p (.solved n .optimal, s) (.ended out, t)
  | lose {s t : Run P K} {n : Nat} {st : Status} {out : Outcome K} : st ≠ .optimal →
      Returns (do Action.note (failure (n == 0) st s); giveUp) s out t →
      Turn p (.solved n st, s) (.ended out, t)

def Turns (p : Policies P K) (s : Run P K) (phase : Phase K) (t : Run P K) : Prop :=
  Relation.ReflTransGen (Turn p) (.built 0, s) (phase, t)

variable {p : Policies P K} {s t u : Run P K} {n : Nat} {st : Status} {out : Outcome K}

def resume (p : Policies P K) (n passes : Nat) : Status → Action P K (Outcome K)
  | .optimal => loop p (iterateDependent p) passes
  | status => do
    let s ← get
    Action.note (failure (n == 0) status s)
    giveUp

theorem runDependent_eq [Backend K] :
    runDependent p = settle p 0 >>= resume p 0 (Backend.passes K) := by
  have hcases : (fun st => match st with
      | .optimal => loop p (iterateDependent p) (Backend.passes K)
      | status => do
        Action.note (.notSolved (← Action.model).name status)
        giveUp) = resume p 0 (Backend.passes K) := by
    funext st
    cases st <;> rfl
  rw [← hcases]
  rfl

theorem resume_succ {passes : Nat} : resume p n (passes + 1) .optimal = (do
    if ← p.stop then finish p
    else
      turn p
      settle p (n + 1) >>= resume p (n + 1) passes) := by
  have hcases : (fun st => match st with
      | .optimal => loop p (iterateDependent p) passes
      | status => do
        Action.note (.lost (← Action.model).name status (← get).iterations)
        giveUp) = resume p (n + 1) passes := by
    funext st
    cases st <;> rfl
  have hloop : resume p n (passes + 1) .optimal = (do
      if ← p.stop then finish p else iterateDependent p >>= resume p (n + 1) passes) := by
    rw [← hcases]
    rfl
  rw [hloop]
  simp only [iterateDependent, resolve, turn, settle, asked, bind_assoc]

/-- What is left of a run that ends with `out` at `t`. -/
def Leads [Backend K] (p : Policies P K) (out : Outcome K) (t : Run P K) :
    Phase K × Run P K → Prop
  | (.built n, u) => ∃ passes, Returns (settle p n >>= resume p n passes) u out t
  | (.solved n st, u) => ∃ passes, Returns (resume p n passes st) u out t
  | (.ended out', u) => out' = out ∧ u = t

theorem Leads.step [Backend K] {x y : Phase K × Run P K} (h : Leads p out t x) (hxy : Turn p x y) :
    Leads p out t y := by
  cases hxy with
  | @solve u v n st hv =>
    obtain ⟨passes, h⟩ := h
    obtain ⟨st', w, hw, h⟩ := returns_bind.mp h
    obtain ⟨rfl, rfl⟩ := hv.unique hw
    exact ⟨passes, h⟩
  | @round u v w n hb hv =>
    obtain ⟨_ | passes, h⟩ := h
    · simp [resume, loop] at h
    rw [resume_succ] at h
    obtain ⟨b, x, hx, h⟩ := returns_bind.mp h
    obtain ⟨rfl, rfl⟩ := hb.unique hx
    obtain ⟨_, y, hy, h⟩ := returns_bind.mp h
    obtain ⟨-, rfl⟩ := hv.unique hy
    exact ⟨passes, h⟩
  | @finish u v w n out' hb hv =>
    obtain ⟨_ | passes, h⟩ := h
    · simp [resume, loop] at h
    rw [resume_succ] at h
    obtain ⟨b, x, hx, h⟩ := returns_bind.mp h
    obtain ⟨rfl, rfl⟩ := hb.unique hx
    exact hv.unique h
  | @lose u v n st out' hst hv =>
    obtain ⟨passes, h⟩ := h
    have h : Returns (do Action.note (failure (n == 0) st u); giveUp) u out t := by
      cases st with
      | optimal => exact absurd rfl hst
      | infeasible | unbounded => exact h
    exact hv.unique h

theorem Turns.leads [Backend K] {phase : Phase K} (h : Turns p s phase u)
    (hrun : Returns (runDependent p) s out t) : Leads p out t (phase, u) := by
  rw [runDependent_eq] at hrun
  have hall {x : Phase K × Run P K} (hx : Relation.ReflTransGen (Turn p) (.built 0, s) x) :
      Leads p out t x := by
    induction hx with
    | refl => exact ⟨_, hrun⟩
    | tail _ hxy ih => exact ih.step hxy
  exact hall h

theorem Turns.exists_settled [Backend K] (h : Turns p s (.built n) u)
    (hrun : Returns (runDependent p) s out t) : ∃ st v, Returns (settle p n) u st v := by
  obtain ⟨passes, h⟩ : Leads p out t (.built n, u) := h.leads hrun
  obtain ⟨st, v, hv, -⟩ := returns_bind.mp h
  exact ⟨st, v, hv⟩

/-- Single operations of a dependent run from `s`: `base` holds before every solve and `point`
after it, and every round leaves less to do. -/
structure Advances (p : Policies P K) (s : Run P K) (base point : P → Model K → Prop)
    (left : P → Nat) : Prop where
  solve : ∀ {n t}, Turns p s (.built n) t → base t.problem t.lp →
    ∃ u, Returns (asked p n) t .optimal u ∧ point u.problem u.lp ∧
      left u.problem = left t.problem ∧ u.iterations = t.iterations
  stop : ∀ t, ∃ b, Returns p.stop t b t
  turn : ∀ {t}, point t.problem t.lp → Returns p.stop t false t →
    ∃ u, Returns (turn p) t () u ∧ base u.problem u.lp ∧ left u.problem < left t.problem ∧
      u.iterations = t.iterations + 1
  finish : ∀ {t}, point t.problem t.lp → ∃ out u, Returns (Engine.finish p) t out u ∧
    out.status = .optimal ∧ left u.problem = left t.problem ∧ u.iterations = t.iterations

namespace Advances

variable {base point : P → Model K → Prop} {left : P → Nat}

theorem settle (k : Advances p s base point left) (ht : Turns p s (.built n) t)
    (hb : base t.problem t.lp) :
    ∃ u, Returns (settle p n) t .optimal u ∧ point u.problem u.lp ∧
      left u.problem = left t.problem ∧ u.iterations = t.iterations := by
  obtain ⟨u, hu, hp, hl, hi⟩ := k.solve ht hb
  refine ⟨{ u with trace := u.trace ++ [.solved u.lp.name .optimal
    (u.lp.solution.map Solution.objective) u.lp.columns.length u.lp.rows.length] }, ?_, hp, hl, hi⟩
  simp only [Engine.settle, report, returns_bind, returns_pure, Action.returns_model,
    Action.returns_note]
  exact ⟨_, u, hu, (), _, ⟨_, _, ⟨rfl, rfl⟩, rfl⟩, rfl, rfl⟩

def Held (base point : P → Model K → Prop) : Phase K × Run P K → Prop
  | (.built _, t) => base t.problem t.lp
  | (.solved _ st, t) => st = .optimal ∧ point t.problem t.lp
  | (.ended out, _) => out.status = .optimal

theorem held (k : Advances p s base point left) (hs : base s.problem s.lp) {phase : Phase K}
    (h : Turns p s phase t) : Held base point (phase, t) := by
  have hall {x : Phase K × Run P K} (hx : Relation.ReflTransGen (Turn p) (.built 0, s) x) :
      Held base point x := by
    induction hx with
    | refl => exact hs
    | @tail y x hy hxy ih =>
      cases hxy with
      | solve hv =>
        obtain ⟨u, hu, hp, -⟩ := k.settle hy ih
        obtain ⟨rfl, rfl⟩ := hv.unique hu
        exact ⟨rfl, hp⟩
      | @round u v w n hb hv =>
        obtain ⟨b, hstop⟩ := k.stop u
        obtain ⟨rfl, rfl⟩ := hb.unique hstop
        obtain ⟨x, hx, hbase, -⟩ := k.turn ih.2 hstop
        obtain ⟨-, rfl⟩ := hv.unique hx
        exact hbase
      | @finish u v w n out hb hv =>
        obtain ⟨b, hstop⟩ := k.stop u
        obtain ⟨rfl, rfl⟩ := hb.unique hstop
        obtain ⟨out', x, hx, ho, -⟩ := k.finish ih.2
        obtain ⟨rfl, -⟩ := hv.unique hx
        exact ho
      | lose hst _ => exact absurd ih.1 hst
  exact hall h

theorem lt_of_round (k : Advances p s base point left) (hs : base s.problem s.lp)
    (ht : Turns p s (.solved n .optimal) t)
    (h : Turn p (.solved n .optimal, t) (.built (n + 1), u)) :
    left u.problem < left t.problem := by
  cases h with
  | round hb hv =>
    obtain ⟨b, hstop⟩ := k.stop t
    obtain ⟨rfl, rfl⟩ := hb.unique hstop
    obtain ⟨v, hv', -, hlt, -⟩ := k.turn (k.held hs ht).2 hstop
    obtain ⟨-, rfl⟩ := hv.unique hv'
    exact hlt

theorem exists_resume (k : Advances p s base point left) {passes : Nat}
    (ht : Turns p s (.solved n .optimal) t) (hp : point t.problem t.lp)
    (hlt : left t.problem < passes) :
    ∃ out u, Returns (resume p n passes .optimal) t out u ∧ out.status = .optimal ∧
      u.iterations + left u.problem ≤ t.iterations + left t.problem := by
  -- each round uses up a pass and lowers what is left, so the passes suffice
  induction passes generalizing n t with
  | zero => omega
  | succ passes ih =>
    obtain ⟨b, hstop⟩ := k.stop t
    rw [resume_succ]
    cases b with
    | true =>
      obtain ⟨out, u, hu, ho, hl, hi⟩ := k.finish hp
      exact ⟨out, u, returns_bind.mpr ⟨_, _, hstop, hu⟩, ho, by omega⟩
    | false =>
      obtain ⟨u, hu, hb, hless, hi⟩ := k.turn hp hstop
      have hround := ht.tail (.round hstop hu)
      obtain ⟨v, hv, hpv, hlv, hiv⟩ := k.settle hround hb
      obtain ⟨out, w, hw, ho, hle⟩ := ih (hround.tail (.solve hv)) hpv (by omega)
      refine ⟨out, w, returns_bind.mpr ⟨_, _, hstop, returns_bind.mpr ⟨_, _, hu, ?_⟩⟩, ho, by omega⟩
      exact returns_bind.mpr ⟨_, _, hv, hw⟩

/-- A run that advances ends with an answer, after no more rounds than there is to do. -/
theorem exists_run [Backend K] (k : Advances p s base point left) (hs : base s.problem s.lp)
    (hpasses : left s.problem < Backend.passes K) :
    ∃ out t, Returns (runDependent p) s out t ∧ out.status = .optimal ∧
      t.iterations + left t.problem ≤ s.iterations + left s.problem := by
  obtain ⟨t, ht, hp, hl, hi⟩ := k.settle .refl hs
  obtain ⟨out, u, hu, ho, hle⟩ := k.exists_resume (.single (.solve ht)) hp (hl ▸ hpasses)
  refine ⟨out, u, ?_, ho, by omega⟩
  rw [runDependent_eq]
  exact returns_bind.mpr ⟨_, _, ht, hu⟩

end Advances

end Engine

end LPRounding
