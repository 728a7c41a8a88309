import LPRounding.Proofs.LP.Points
import LPRounding.Run.Engine

/-!
What a plain run keeps. A problem states once what holds of it and its model between operations,
inside a round pass and at a solved point, and proves that each single step keeps that; a run that
ends with an answer then ends at a solved point without active columns.
-/

namespace LPRounding

set_option linter.unusedSectionVars false

variable {P K : Type} [Scalar K]

def Run.Agree (s t : Run P K) : Prop := t.problem = s.problem ∧ t.lp = s.lp

theorem Run.Agree.trans {s t u : Run P K} (h : s.Agree t) (h' : t.Agree u) : s.Agree u :=
  ⟨h'.1.trans h.1, h'.2.trans h.2⟩

theorem Action.returns_solveModel [Backend K] {s t : Run P K} {st : Status}
    (h : Returns Action.solveModel s st t) :
    t.problem = s.problem ∧ Returns (Model.solve Backend.solver) s.lp st t.lp := by
  simp only [solveModel, returns_bind, returns_onModel, returns_model] at h
  obtain ⟨_, _, ⟨m, hm, rfl⟩, _, _, ⟨rfl, rfl⟩, h⟩ := h
  split at h
  · split at h <;>
    · simp only [returns_bind, returns_note, returns_pure] at h
      obtain ⟨_, _, rfl, rfl, rfl⟩ := h
      exact ⟨rfl, hm⟩
  · obtain ⟨rfl, rfl⟩ := returns_pure.mp h
    exact ⟨rfl, hm⟩

variable [Roundable P K]

/-- A call of row generation comes to a solved run that is accepted or has no optimal point. What its
solves establish, and keep where a row was added before, holds of that run. -/
theorem exists_of_generating [Backend K] {motive : Status → Run P K → Prop} {s t : Run P K}
    {st : Status} (solve : ∀ {st t}, Returns Action.solveModel s st t → motive st t)
    (again : ∀ {t u v w : Run P K} {i : Nat} {st : Status}, motive .optimal t →
      Returns Roundable.feasible t false u → Returns Roundable.separate u i v →
      Returns Action.solveModel v st w → motive st w)
    (h : Returns SolveRule.generating.apply s st t) :
    ∃ u, motive st u ∧ (st = .optimal ∧ Returns Roundable.feasible u true t ∨
      st ≠ .optimal ∧ t = { u with trace := u.trace ++ [.generationStopped st] }) := by
  obtain ⟨st', u, hu, h⟩ := returns_bind.mp h
  replace hu := solve hu
  generalize Backend.passes K = passes at h
  induction passes, st' using generateRows.induct generalizing u with
  | case1 => simp [generateRows] at h
  | case2 passes ih =>
    obtain ⟨b, v, hv, h⟩ := returns_bind.mp h
    cases b with
    | true =>
      obtain ⟨rfl, rfl⟩ := returns_pure.mp h
      exact ⟨u, hu, .inl ⟨rfl, hv⟩⟩
    | false =>
      obtain ⟨i, w, hw, h⟩ := returns_bind.mp h
      obtain ⟨st', x, hx, h⟩ := returns_bind.mp h
      exact ih st' x (again hu hv hw hx) h
  | case3 passes st' h₁ h₂ =>
    rw [generateRows.eq_3 _ _ h₁ h₂] at h
    simp only [returns_bind, Action.returns_note, returns_pure] at h
    obtain ⟨_, _, rfl, rfl, rfl⟩ := h
    refine ⟨u, hu, .inr ⟨?_, rfl⟩⟩
    rintro rfl
    cases passes with
    | zero => exact h₁ rfl rfl
    | succ n => exact h₂ n rfl rfl

namespace Engine

def Still (s t : Run P K) : Prop := t.lp = s.lp ∧ t.iterations = s.iterations

/-- Single steps of a run whose columns are rounded by `rule`: `base` holds before every solve,
`pass` while columns are fixed one by one, `point` at a solved point and while rows are relaxed. -/
structure Keeps (p : Policies P K) (rule : Nat → Action P K (Option K))
    (base pass point : P → Model K → Prop) : Prop where
  solve : ∀ {s t}, base s.problem s.lp → Returns p.solve s .optimal t → point t.problem t.lp
  resolve : ∀ {s t}, base s.problem s.lp → Returns p.resolve s .optimal t → point t.problem t.lp
  enter : ∀ {q m}, point q m → pass q m
  exit : ∀ {q m}, pass q m → base q m
  skip : ∀ {s t j}, Returns (rule j) s none t → s.Agree t
  fix : ∀ {s t j v m}, pass s.problem s.lp → Returns (rule j) s (some v) t →
    Returns (Model.fixColumn j v) t.lp () m → pass t.problem m
  leave : ∀ {s t i}, Returns (p.relax i) s false t → s.Agree t
  relax : ∀ {s t i m}, point s.problem s.lp → Returns (p.relax i) s true t →
    Returns (Model.relaxRow i) t.lp () m → point t.problem m

section Steps

variable {p : Policies P K} {s t : Run P K}

theorem returns_report {st : Status} {u : Unit} (h : Returns (report st) s u t) : s.Agree t := by
  simp only [report, returns_bind, Action.returns_model, Action.returns_note] at h
  obtain ⟨_, _, ⟨rfl, rfl⟩, rfl⟩ := h
  exact ⟨rfl, rfl⟩

theorem returns_solve {st : Status} (h : Returns (solve p) s st t) :
    ∃ u, Returns p.solve s st u ∧ u.Agree t := by
  simp only [solve, returns_bind, returns_pure] at h
  obtain ⟨_, u, hu, _, _, hr, rfl, rfl⟩ := h
  exact ⟨u, hu, returns_report hr⟩

theorem returns_resolve {st : Status} (h : Returns (resolve p) s st t) :
    ∃ u, Returns p.resolve s st u ∧ u.Agree t := by
  simp only [resolve, returns_bind, returns_pure] at h
  obtain ⟨_, u, hu, _, _, hr, rfl, rfl⟩ := h
  exact ⟨u, hu, returns_report hr⟩

theorem returns_settle {n r l : Nat} {st : Status}
    (h : Returns (do Action.note (.iterated n r l); resolve p) s st t) :
    ∃ u, Returns p.resolve { s with trace := s.trace ++ [.iterated n r l] } st u ∧ u.Agree t := by
  obtain ⟨_, u, hu, h⟩ := returns_bind.mp h
  obtain rfl := Action.returns_note.mp hu
  exact returns_resolve h

theorem returns_beginIteration {n : Nat} (h : Returns beginIteration s n t) : s.Agree t := by
  simp only [beginIteration, returns_bind, returns_modify, returns_get, returns_pure] at h
  obtain ⟨_, _, rfl, _, _, ⟨rfl, rfl⟩, -, rfl⟩ := h
  exact ⟨rfl, rfl⟩

theorem returns_finish {out : Outcome K} (h : Returns (finish p) s out t) :
    ∃ u, Returns p.setSolution s () u ∧ u.Agree t := by
  simp only [finish, returns_bind, returns_pure, returns_lift, returns_get,
    Action.returns_model, Action.returns_note] at h
  obtain ⟨_, u, hu, _, _, ⟨rfl, rfl⟩, _, _, ⟨-, rfl⟩, _, _, ⟨rfl, rfl⟩, _, _, rfl, -, rfl⟩ := h
  exact ⟨u, hu, rfl, rfl⟩

theorem returns_giveUp {out : Outcome K} (h : Returns (giveUp : Action P K _) s out t) :
    out.status = .infeasible := by
  simp only [giveUp, returns_bind, returns_pure] at h
  obtain ⟨_, _, -, rfl, -⟩ := h
  rfl

end Steps

section Loops

variable {p : Policies P K} {step : Action P K Status} {s t : Run P K} {out : Outcome K}

theorem returns_loop {point : Run P K → Prop} (hstop : ∀ {u v b}, Returns p.stop u b v → u = v)
    (hstep : ∀ {u v}, point u → Returns step u .optimal v → point v) {passes : Nat}
    (h : Returns (loop p step passes) s out t) (ho : out.status = .optimal) (hs : point s) :
    ∃ u v, point u ∧ Returns p.stop u true u ∧ Returns p.setSolution u () v ∧ v.Agree t := by
  induction passes generalizing s with
  | zero => simp [loop] at h
  | succ passes ih =>
    obtain ⟨b, u, hb, h⟩ := returns_bind.mp h
    obtain rfl := hstop hb
    cases b with
    | true =>
      obtain ⟨v, hv, ha⟩ := returns_finish h
      exact ⟨s, v, hs, hb, hv, ha⟩
    | false =>
      obtain ⟨st, u, hu, h⟩ := returns_bind.mp h
      split at h
      · exact ih h (hstep hs hu)
      · simp only [returns_bind] at h
        obtain ⟨_, _, -, _, _, -, _, _, -, h⟩ := h
        simp [returns_giveUp h] at ho

theorem returns_start [Backend K] (point : Run P K → Prop)
    (hagree : ∀ {u v}, point u → u.Agree v → point v)
    (hstop : ∀ {u v b}, Returns p.stop u b v → u = v)
    (hsolve : ∀ {u}, Returns p.solve s .optimal u → point u)
    (hstep : ∀ {u v}, point u → Returns step u .optimal v → point v)
    (h : Returns (start p step) s out t) (ho : out.status = .optimal) :
    ∃ u v, point u ∧ Returns p.stop u true u ∧ Returns p.setSolution u () v ∧ v.Agree t := by
  obtain ⟨st, u, hu, h⟩ := returns_bind.mp h
  split at h
  · obtain ⟨v, hv, ha⟩ := returns_solve hu
    exact returns_loop hstop hstep h ho (hagree (hsolve hv) ha)
  · simp only [returns_bind] at h
    obtain ⟨_, _, -, _, _, -, h⟩ := h
    simp [returns_giveUp h] at ho

end Loops

variable {p : Policies P K} {rule : Nat → Action P K (Option K)}
  {base pass point : P → Model K → Prop} {s t : Run P K}

theorem roundColumns_keeps (k : Keeps p rule base pass point) {columns : List Nat} {n r : Nat}
    (h : Returns (roundColumns rule columns n) s r t) (hs : pass s.problem s.lp) :
    pass t.problem t.lp := by
  induction columns generalizing s n with
  | nil =>
    obtain ⟨-, rfl⟩ := returns_pure.mp h
    exact hs
  | cons j rest ih =>
    unfold roundColumns at h
    obtain ⟨v, u, hv, h⟩ := returns_bind.mp h
    cases v with
    | none =>
      obtain ⟨hp, hm⟩ := k.skip hv
      exact ih h (hp ▸ hm ▸ hs)
    | some v =>
      simp only [returns_bind, Action.returns_onModel, Action.returns_note] at h
      obtain ⟨_, _, ⟨m, hm, rfl⟩, _, _, rfl, h⟩ := h
      have hq := k.fix hs hv hm
      exact ih h hq

theorem roundColumns_idle (k : Keeps p rule base pass point) {columns : List Nat} {n r : Nat}
    (h : Returns (roundColumns rule columns n) s r t) : n ≤ r ∧ (r = n → s.Agree t) := by
  induction columns generalizing s n with
  | nil =>
    obtain ⟨rfl, rfl⟩ := returns_pure.mp h
    exact ⟨le_rfl, fun _ => ⟨rfl, rfl⟩⟩
  | cons j rest ih =>
    unfold roundColumns at h
    obtain ⟨v, u, hv, h⟩ := returns_bind.mp h
    cases v with
    | none =>
      obtain ⟨hp, hm⟩ := k.skip hv
      obtain ⟨hn, hi⟩ := ih h
      exact ⟨hn, fun hr => ⟨(hi hr).1.trans hp, (hi hr).2.trans hm⟩⟩
    | some v =>
      simp only [returns_bind] at h
      obtain ⟨_, _, -, _, _, -, h⟩ := h
      have hn := (ih h).1
      exact ⟨by omega, fun hr => by omega⟩

theorem relaxRows_keeps (k : Keeps p rule base pass point) {rows : List Nat} {n r : Nat}
    (h : Returns (relaxRows p rows n) s r t) (hs : point s.problem s.lp) :
    point t.problem t.lp := by
  induction rows generalizing s n with
  | nil =>
    obtain ⟨-, rfl⟩ := returns_pure.mp h
    exact hs
  | cons i rest ih =>
    unfold relaxRows at h
    split at h
    · obtain ⟨-, rfl⟩ := returns_pure.mp h
      exact hs
    obtain ⟨b, u, hb, h⟩ := returns_bind.mp h
    cases b with
    | false =>
      obtain ⟨hp, hm⟩ := k.leave hb
      exact ih h (hp ▸ hm ▸ hs)
    | true =>
      simp only [if_true, returns_bind, Action.returns_onModel, Action.returns_note] at h
      obtain ⟨_, _, ⟨m, hm, rfl⟩, _, _, rfl, h⟩ := h
      have hq := k.relax hs hb hm
      exact ih h hq

theorem returns_iterate (k : Keeps p rule base pass point) (hp : p.rounding = .perColumn rule)
    {st : Status} (h : Returns (iterate p) s st t) (hs : point s.problem s.lp) :
    ∃ u v, base u.problem u.lp ∧ Returns p.resolve u st v ∧ v.Agree t := by
  have after {u v : Run P K} (hb : base u.problem u.lp) (hu : u.Agree v)
      (hv : Returns (resolve p) v st t) :
      ∃ u v, base u.problem u.lp ∧ Returns p.resolve u st v ∧ v.Agree t := by
    obtain ⟨w, hw, ha⟩ := returns_resolve hv
    rw [← hu.1, ← hu.2] at hb
    exact ⟨v, w, hb, hw, ha⟩
  simp only [iterate, round, relax, hp, returns_bind, Action.returns_model] at h
  obtain ⟨_, s₁, h₁, rounded, s₂, ⟨_, _, ⟨rfl, rfl⟩, h₂⟩, h⟩ := h
  obtain ⟨hp₁, hm₁⟩ := returns_beginIteration h₁
  rw [← hp₁, ← hm₁] at hs
  split at h
  · next hr =>
    obtain ⟨hp₂, hm₂⟩ := (roundColumns_idle k h₂).2 hr
    rw [← hp₂, ← hm₂] at hs
    simp only [returns_bind, Action.returns_model, Action.returns_note] at h
    obtain ⟨relaxed, s₃, ⟨_, _, ⟨rfl, rfl⟩, h₃⟩, _, _, rfl, h⟩ := h
    split at h
    · simp at h
    · exact after (k.exit (k.enter (relaxRows_keeps k h₃ hs))) (by exact ⟨rfl, rfl⟩) h
  · next hr =>
    simp only [returns_bind, returns_pure, Action.returns_note] at h
    obtain ⟨relaxed, _, ⟨-, rfl⟩, _, _, rfl, h⟩ := h
    rw [if_neg fun hn => hr hn.1] at h
    exact after (k.exit (roundColumns_keeps k h₂ (k.enter hs))) (by exact ⟨rfl, rfl⟩) h

theorem iterate_keeps (k : Keeps p rule base pass point) (hp : p.rounding = .perColumn rule)
    (h : Returns (iterate p) s .optimal t) (hs : point s.problem s.lp) :
    point t.problem t.lp := by
  obtain ⟨u, v, hb, hv, hpv, hmv⟩ := returns_iterate k hp h hs
  exact hpv ▸ hmv ▸ k.resolve hb hv

theorem returns_allFixed {b : Bool} [Backend K] (h : Returns (StopRule.allFixed.apply) s b t) :
    s = t ∧ (b = true → s.lp.activeColumns = []) := by
  simp only [StopRule.apply, returns_bind, Action.returns_model, returns_pure] at h
  obtain ⟨_, _, ⟨rfl, rfl⟩, rfl, rfl⟩ := h
  exact ⟨rfl, by simp⟩

/-- A run with an answer reads it off a solved point at which every column has its constant. -/
theorem run_keeps [Backend K] (k : Keeps p rule base pass point)
    (hp : p.rounding = .perColumn rule) (hstop : p.stop = StopRule.allFixed.apply)
    {out : Outcome K} (h : Returns (run p) s out t) (ho : out.status = .optimal)
    (hs : base s.problem s.lp) :
    ∃ u v, point u.problem u.lp ∧ u.lp.activeColumns = [] ∧
      Returns p.setSolution u () v ∧ v.Agree t := by
  obtain ⟨u, v, hu, hb, hv, ha⟩ := returns_start (fun u => point u.problem u.lp)
    (fun hu hv => hv.1 ▸ hv.2 ▸ hu) (fun hb => (returns_allFixed (hstop ▸ hb)).1)
    (fun hu => k.solve hs hu) (fun hu hv => iterate_keeps k hp hv hu) h ho
  exact ⟨u, v, hu, (returns_allFixed (hstop ▸ hb)).2 rfl, hv, ha⟩

theorem run_optimal [Backend K] (k : Keeps p rule base pass point)
    (hp : p.rounding = .perColumn rule) (hstop : p.stop = StopRule.allFixed.apply)
    (hsolve : ∀ {s t st}, base s.problem s.lp → Returns p.solve s st t → st = .optimal)
    (hresolve : ∀ {s t st}, base s.problem s.lp → Returns p.resolve s st t → st = .optimal)
    {out : Outcome K} (h : Returns (run p) s out t) (hs : base s.problem s.lp) :
    out.status = .optimal := by
  have hloop {u : Run P K} {passes : Nat} (h : Returns (loop p (iterate p) passes) u out t)
      (hu : point u.problem u.lp) : out.status = .optimal := by
    induction passes generalizing u with
    | zero => simp [loop] at h
    | succ passes ih =>
      simp only [loop, hstop] at h
      obtain ⟨b, v, hb, h⟩ := returns_bind.mp h
      obtain ⟨rfl, -⟩ := returns_allFixed hb
      split at h
      · simp only [finish, returns_bind, returns_pure] at h
        obtain ⟨_, _, -, _, _, -, _, _, -, _, _, -, _, _, -, rfl, -⟩ := h
        rfl
      · obtain ⟨st, v, hv, h⟩ := returns_bind.mp h
        obtain ⟨w, x, hb, hw, -⟩ := returns_iterate k hp hv hu
        obtain rfl := hresolve hb hw
        exact ih h (iterate_keeps k hp hv hu)
  unfold run start at h
  obtain ⟨st, u, hu, h⟩ := returns_bind.mp h
  obtain ⟨v, hv, hpv, hmv⟩ := returns_solve hu
  obtain rfl := hsolve hs hv
  have hq := k.solve hs hv
  exact hloop h (hpv ▸ hmv ▸ hq)

theorem returns_checkInput (h : Returns checkInput s () t) :
    Returns Roundable.check s none t := by
  obtain ⟨issue, u, hc, h⟩ := returns_bind.mp h
  cases issue with
  | some issue => simp at h
  | none =>
    obtain ⟨-, rfl⟩ := returns_pure.mp h
    exact hc

theorem returns_checked {α : Type} {act : Action P K α} {a : α}
    (h : Returns (do checkInput; p.init; act) s a t) :
    ∃ u v, Returns Roundable.check s none u ∧ Returns p.init u () v ∧ Returns act v a t := by
  obtain ⟨_, u, hu, h⟩ := returns_bind.mp h
  obtain ⟨_, v, hv, h⟩ := returns_bind.mp h
  exact ⟨u, v, returns_checkInput hu, hv, h⟩

theorem returns_solveProblem [Backend K] {out : Outcome K}
    (h : Returns (solveProblem p) s out t) :
    ∃ u v, Returns Roundable.check s none u ∧ Returns p.init u () v ∧ Returns (run p) v out t :=
  returns_checked h

end Engine

end LPRounding
