import LPRounding.Proofs.Run.Stages

/-!
Policies that leave the model to the engine. They may append rows and solve when they are asked to
solve; whatever else happens to the model is then done by the engine, one column or one row at a
time.
-/

namespace LPRounding

set_option linter.unusedSectionVars false

variable {P K : Type} [Scalar K]

/-- Rows may have been added and the last solution replaced, nothing else. -/
structure Run.Appended (s t : Run P K) : Prop where
  lp : ∃ rows solution, t.lp = { s.lp with rows := s.lp.rows ++ rows, solution }
  iterations : t.iterations = s.iterations

variable [Roundable P K]

open Engine in
/-- The model changes only where a solve appends rows; the count of iterations is the engine's. -/
structure Policies.Restrained (p : Policies P K) : Prop where
  solve : ∀ {s t st}, Returns p.solve s st t → s.Appended t
  resolve : ∀ {s t st}, Returns p.resolve s st t → s.Appended t
  ask : ∀ {s t j v}, Returns (p.ask j) s v t → Still s t
  relax : ∀ {s t i b}, Returns (p.relax i) s b t → Still s t
  stop : ∀ {s t b}, Returns p.stop s b t → Still s t
  setSolution : ∀ {s t}, Returns p.setSolution s () t → Still s t

namespace Engine

variable {p : Policies P K} {s t u : Run P K}

theorem Still.refl (s : Run P K) : Still s s := ⟨rfl, rfl⟩

theorem Still.trans (h : Still s t) (h' : Still t u) : Still s u :=
  ⟨h'.1.trans h.1, h'.2.trans h.2⟩

/-- What a step asks, and what it does to the model and the count of iterations, for restrained
policies. -/
inductive Move (p : Policies P K) : Stage K × Run P K → Stage K × Run P K → Prop where
  | solve {s t : Run P K} {st : Status} : s.Appended t → Move p (.begun, s) (.solved true st, t)
  | enter {s t u : Run P K} {first : Bool} : Returns p.stop s false u → t.lp = s.lp →
      t.iterations = s.iterations + 1 →
      Move p (.solved first .optimal, s) (.rounding t.iterations t.lp.activeColumns 0, t)
  | skip {s t : Run P K} {n j r : Nat} {rest : List Nat} : Returns (p.ask j) s none t →
      Still s t → Move p (.rounding n (j :: rest) r, s) (.rounding n rest r, t)
  | fix {s t u : Run P K} {n j r : Nat} {rest : List Nat} {v : K} :
      Returns (p.ask j) s (some v) u → Returns (Model.fixColumn j v) s.lp () t.lp →
      t.iterations = s.iterations →
      Move p (.rounding n (j :: rest) r, s) (.rounding n rest (r + 1), t)
  | idle {s : Run P K} {n : Nat} :
      Move p (.rounding n [] 0, s) (.relaxing n s.lp.activeRows 0, s)
  | busy {s : Run P K} {n r : Nat} : r ≠ 0 → Move p (.rounding n [] r, s) (.passed n r 0, s)
  | leave {s t : Run P K} {n i l : Nat} {rest : List Nat} : Returns (p.relax i) s false t →
      Still s t → Move p (.relaxing n (i :: rest) l, s) (.relaxing n rest l, t)
  | relax {s t u : Run P K} {n i l : Nat} {rest : List Nat} : p.limit l = false →
      Returns (p.relax i) s true u → Returns (Model.relaxRow i) s.lp () t.lp →
      t.iterations = s.iterations →
      Move p (.relaxing n (i :: rest) l, s) (.relaxing n rest (l + 1), t)
  | pass {s : Run P K} {n l : Nat} {rows : List Nat} :
      Move p (.relaxing n rows l, s) (.passed n 0 l, s)
  | resolve {s t : Run P K} {n r l : Nat} {st : Status} : ¬ (r = 0 ∧ l = 0) → s.Appended t →
      Move p (.passed n r l, s) (.solved false st, t)
  | ended {s t : Run P K} {first : Bool} {st : Status} {out : Outcome K} : Still s t →
      Move p (.solved first st, s) (.ended out, t)

theorem returns_report_still {st : Status} {v : Unit} (h : Returns (report st) s v t) :
    Still s t := by
  simp only [report, returns_bind, Action.returns_model, Action.returns_note] at h
  obtain ⟨_, _, ⟨rfl, rfl⟩, rfl⟩ := h
  exact ⟨rfl, rfl⟩

theorem appended_of_report {st : Status} {v : Unit} (hs : s.Appended t)
    (h : Returns (report st) t v u) : s.Appended u := by
  obtain ⟨hlp, hit⟩ := returns_report_still h
  exact ⟨hlp ▸ hs.lp, hit.trans hs.iterations⟩

/-- Everything that a step of a restrained run can do. -/
theorem Step.move (hp : p.Restrained) {a b : Stage K × Run P K} (h : Step p p.ask a b) :
    Move p a b := by
  cases h with
  | solve h =>
    simp only [Engine.solve, returns_bind, returns_pure] at h
    obtain ⟨_, u, hu, _, _, hrep, rfl, rfl⟩ := h
    exact .solve (appended_of_report (hp.solve hu) hrep)
  | enter hb hn =>
    obtain ⟨hlp, hit⟩ := hp.stop hb
    simp only [beginIteration, returns_bind, returns_modify, returns_get, returns_pure] at hn
    obtain ⟨_, _, rfl, _, _, ⟨rfl, rfl⟩, rfl, rfl⟩ := hn
    exact .enter hb hlp (congrArg (· + 1) hit)
  | skip h => exact .skip h (hp.ask h)
  | fix hv h =>
    obtain ⟨hlp, hit⟩ := hp.ask hv
    simp only [returns_bind, Action.returns_onModel, Action.returns_note] at h
    obtain ⟨_, _, ⟨m, hm, rfl⟩, rfl⟩ := h
    exact .fix hv (hlp ▸ hm) hit
  | idle => exact .idle
  | busy hr => exact .busy hr
  | leave _ h => exact .leave h (hp.relax h)
  | relax hl hb h =>
    obtain ⟨hlp, hit⟩ := hp.relax hb
    simp only [returns_bind, Action.returns_onModel, Action.returns_note] at h
    obtain ⟨_, _, ⟨m, hm, rfl⟩, rfl⟩ := h
    exact .relax hl hb (hlp ▸ hm) hit
  | limit => exact .pass
  | out => exact .pass
  | resolve hn h =>
    simp only [Engine.resolve, returns_bind, returns_pure, Action.returns_note] at h
    obtain ⟨_, _, rfl, _, u, hu, _, _, hrep, rfl, rfl⟩ := h
    obtain ⟨hlp, hit⟩ := appended_of_report (hp.resolve hu) hrep
    exact .resolve hn ⟨hlp, hit⟩
  | finish hb h =>
    simp only [Engine.finish, returns_bind, returns_pure, returns_lift, returns_get,
      Action.returns_model, Action.returns_note] at h
    obtain ⟨_, u, hu, _, _, ⟨rfl, rfl⟩, _, _, ⟨-, rfl⟩, _, _, ⟨rfl, rfl⟩, _, _, rfl, -, rfl⟩ := h
    obtain ⟨hlp, hit⟩ := (hp.stop hb).trans (hp.setSolution hu)
    exact .ended ⟨hlp, hit⟩
  | lose _ h =>
    simp only [giveUp, returns_bind, returns_pure, returns_modify, Action.returns_note] at h
    obtain ⟨_, _, rfl, _, _, rfl, rfl, rfl⟩ := h
    exact .ended ⟨rfl, rfl⟩

end Engine

section Rules

variable {s t : Run P K}

open Engine

namespace RoundRule

theorem atValue_still {value : K} {j : Nat} {v : Option K} (h : Returns (atValue value j) s v t) :
    Still s t := by
  simp only [atValue, tolerance, returns_bind, returns_pure, returns_lift, Action.returns_model,
    Action.returns_problem] at h
  obtain ⟨_, _, ⟨rfl, rfl⟩, x, _, ⟨hx, rfl⟩, _, _, ⟨_, _, ⟨rfl, rfl⟩, rfl, rfl⟩, rfl, rfl⟩ := h
  exact .refl _

theorem atHalf_still {j : Nat} {v : Option K} (h : Returns (atHalf j) s v t) : Still s t := by
  simp only [atHalf, tolerance, returns_bind, returns_pure, returns_lift, Action.returns_model,
    Action.returns_problem] at h
  obtain ⟨_, _, ⟨rfl, rfl⟩, x, _, ⟨hx, rfl⟩, _, _, ⟨_, _, ⟨rfl, rfl⟩, rfl, rfl⟩, rfl, rfl⟩ := h
  exact .refl _

theorem committing_still {take : Nat → Action P K (Option K)} {j : Nat} {v : Option K}
    (htake : ∀ {s t v}, Returns (take j) s v t → Still s t)
    (hcommit : ∀ {s t : Run P K} {j}, Returns (Roundable.commit j) s () t → Still s t)
    (h : Returns (committing take j) s v t) : Still s t := by
  obtain ⟨w, u, hw, h⟩ := returns_bind.mp h
  have hu := atValue_still hw
  split at h
  · obtain ⟨-, rfl⟩ := returns_pure.mp h
    exact hu
  · obtain ⟨w, x, hx, h⟩ := returns_bind.mp h
    have hx := hu.trans (htake hx)
    split at h
    · obtain ⟨_, y, hy, h⟩ := returns_bind.mp h
      obtain ⟨-, rfl⟩ := returns_pure.mp h
      exact hx.trans (hcommit hy)
    · obtain ⟨-, rfl⟩ := returns_pure.mp h
      exact hx

mutual

theorem apply_still
    (hcommit : ∀ {s t : Run P K} {j}, Returns (Roundable.commit j) s () t → Still s t)
    (rule : RoundRule K) {s t : Run P K} {j : Nat} {v : Option K}
    (h : Returns (rule.apply j) s v t) : Still s t := by
  cases rule with
  | equals value => exact atValue_still h
  | half => exact atHalf_still h
  | never =>
    obtain ⟨-, rfl⟩ := returns_pure.mp h
    exact .refl _
  | always value =>
    obtain ⟨-, rfl⟩ := returns_pure.mp h
    exact .refl _
  | firstOf rules => exact applyFirst_still hcommit rules h
  | commitHalf => exact committing_still atHalf_still hcommit h
  | commitOne => exact committing_still atValue_still hcommit h

theorem applyFirst_still
    (hcommit : ∀ {s t : Run P K} {j}, Returns (Roundable.commit j) s () t → Still s t)
    (rules : List (RoundRule K)) {s t : Run P K} {j : Nat} {v : Option K}
    (h : Returns (applyFirst rules j) s v t) : Still s t := by
  cases rules with
  | nil =>
    obtain ⟨-, rfl⟩ := returns_pure.mp h
    exact .refl _
  | cons rule rest =>
    obtain ⟨w, u, hw, h⟩ := returns_bind.mp h
    have hu := apply_still hcommit rule hw
    split at h
    · obtain ⟨-, rfl⟩ := returns_pure.mp h
      exact hu
    · exact hu.trans (applyFirst_still hcommit rest h)

end

end RoundRule

theorem RelaxRule.still (rule : RelaxRule) {i : Nat} {b : Bool}
    (h : Returns (rule.apply i) s b t) : Still s t := by
  cases rule with
  | never | always | rows =>
    obtain ⟨-, rfl⟩ := returns_pure.mp h
    exact .refl _
  | degreeAtMost k =>
    simp only [RelaxRule.apply, returns_bind, returns_lift, Action.returns_model,
      returns_pure] at h
    obtain ⟨_, _, ⟨rfl, rfl⟩, _, _, ⟨-, rfl⟩, -, rfl⟩ := h
    exact .refl _

theorem StopRule.still (rule : StopRule) {b : Bool} (h : Returns rule.apply s b t) :
    Still s t := by
  cases rule <;>
  · simp only [StopRule.apply, returns_bind, Action.returns_model, returns_pure] at h
    obtain ⟨_, _, ⟨rfl, rfl⟩, -, rfl⟩ := h
    exact .refl _

theorem Run.Appended.trans {u : Run P K} (h : s.Appended t) (h' : t.Appended u) :
    s.Appended u := by
  obtain ⟨⟨rows, solution, hlp⟩, hit⟩ := h
  obtain ⟨⟨rows', solution', hlp'⟩, hit'⟩ := h'
  refine ⟨⟨rows ++ rows', solution', ?_⟩, hit'.trans hit⟩
  rw [hlp', hlp]
  simp

theorem Run.Appended.of_still (h : Still s t) : s.Appended t :=
  ⟨⟨[], s.lp.solution, by simp [h.1]⟩, h.2⟩

variable [Backend K]

theorem Action.lp_of_solveModel {st : Status} (h : Returns Action.solveModel s st t) :
    (∃ solution, t.lp = { s.lp with solution }) ∧ t.iterations = s.iterations := by
  refine ⟨?_, ?_⟩
  · obtain ⟨solution, hlp, -⟩ := Model.returns_solve (Action.returns_solveModel h).2
    exact ⟨solution, hlp⟩
  · simp only [solveModel, returns_bind, returns_onModel, returns_model] at h
    obtain ⟨_, _, ⟨m, hm, rfl⟩, _, _, ⟨rfl, rfl⟩, h⟩ := h
    split at h
    · split at h <;>
      · simp only [returns_bind, returns_note, returns_pure] at h
        obtain ⟨_, _, rfl, -, rfl⟩ := h
        rfl
    · obtain ⟨-, rfl⟩ := returns_pure.mp h
      rfl

theorem Action.solveModel_appended {st : Status} (h : Returns Action.solveModel s st t) :
    s.Appended t := by
  obtain ⟨⟨solution, hlp⟩, hit⟩ := Action.lp_of_solveModel h
  exact ⟨⟨[], solution, by simp [hlp]⟩, hit⟩

theorem SolveRule.appended
    (hfeasible : ∀ {s t : Run P K} {b}, Returns Roundable.feasible s b t → Still s t)
    (hseparate : ∀ {s t : Run P K} {i}, Returns Roundable.separate s i t → s.Appended t)
    (rule : SolveRule) {st : Status} (h : Returns rule.apply s st t) : s.Appended t := by
  cases rule with
  | plain => exact Action.solveModel_appended h
  | generating =>
    obtain ⟨u, hu, hend⟩ := exists_of_generating (motive := fun _ u => s.Appended u)
      Action.solveModel_appended (fun ht hu hv hw => ((ht.trans (.of_still (hfeasible hu))).trans
        (hseparate hv)).trans (Action.solveModel_appended hw)) h
    rcases hend with ⟨-, hb⟩ | ⟨-, rfl⟩
    · exact hu.trans (.of_still (hfeasible hb))
    · exact ⟨hu.lp, hu.iterations⟩

theorem ResolveRule.appended
    (hfeasible : ∀ {s t : Run P K} {b}, Returns Roundable.feasible s b t → Still s t)
    (hseparate : ∀ {s t : Run P K} {i}, Returns Roundable.separate s i t → s.Appended t)
    (rule : ResolveRule) {st : Status} (h : Returns rule.apply s st t) : s.Appended t := by
  cases rule with
  | always rule => exact rule.appended hfeasible hseparate h
  | failAfter n rule =>
    obtain ⟨_, _, hget, h⟩ := returns_bind.mp h
    obtain ⟨rfl, rfl⟩ := returns_get.mp hget
    split at h
    · obtain ⟨_, u, hu, h⟩ := returns_bind.mp h
      obtain rfl := returns_set.mp hu
      obtain ⟨hlp, hit⟩ := rule.appended hfeasible hseparate h
      exact ⟨hlp, hit⟩
    · obtain ⟨-, rfl⟩ := returns_pure.mp h
      exact .of_still (.refl _)

theorem Policies.exists_of_replace {p p' : Policies P K} {c : Choices K}
    (h : p.replace c = .ok p') : ∃ limit, p' = { p with
      rounding := c.round.elim p.rounding fun rule => .perColumn rule.apply
      relax := c.relax.elim p.relax RelaxRule.apply
      limit
      stop := c.stop.elim p.stop StopRule.apply
      solve := c.solve.elim p.solve SolveRule.apply
      resolve := c.resolve.elim p.resolve ResolveRule.apply } := by
  simp only [Policies.replace] at h
  split at h
  · cases h
  split at h
  · obtain ⟨limit, -, h⟩ := ok_bind_iff.mp h
    exact ⟨limit, (Except.ok.inj h).symm⟩
  · exact ⟨p.limit, (Except.ok.inj h).symm⟩

theorem Policies.Restrained.replace {p p' : Policies P K} {c : Choices K} (hp : p.Restrained)
    (hcommit : ∀ {s t : Run P K} {j}, Returns (Roundable.commit j) s () t → Still s t)
    (hfeasible : ∀ {s t : Run P K} {b}, Returns Roundable.feasible s b t → Still s t)
    (hseparate : ∀ {s t : Run P K} {i}, Returns Roundable.separate s i t → s.Appended t)
    (h : p.replace c = .ok p') : p'.Restrained := by
  obtain ⟨limit, rfl⟩ := exists_of_replace h
  refine ⟨?_, ?_, ?_, ?_, ?_, hp.setSolution⟩
  · intro s t st h
    cases hc : c.solve with
    | none => exact hp.solve (by simpa [hc] using h)
    | some rule => exact rule.appended hfeasible hseparate (by simpa [hc] using h)
  · intro s t st h
    cases hc : c.resolve with
    | none => exact hp.resolve (by simpa [hc] using h)
    | some rule => exact rule.appended hfeasible hseparate (by simpa [hc] using h)
  · intro s t j v h
    cases hc : c.round with
    | none => exact hp.ask (by simpa [hc, Policies.ask] using h)
    | some rule => exact rule.apply_still hcommit (by simpa [hc, Policies.ask] using h)
  · intro s t i b h
    cases hc : c.relax with
    | none => exact hp.relax (by simpa [hc] using h)
    | some rule => exact rule.still (by simpa [hc] using h)
  · intro s t b h
    cases hc : c.stop with
    | none => exact hp.stop (by simpa [hc] using h)
    | some rule => exact rule.still (by simpa [hc] using h)

end Rules

end LPRounding
