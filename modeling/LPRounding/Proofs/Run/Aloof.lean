import LPRounding.Proofs.Run.Handover
import LPRounding.Proofs.Run.Separation
import LPRounding.Proofs.Run.Restrained

/-!
Policies that leave the answer to the rounding rule: all the general ones do. Solving changes the
last point, row generation adds rows and turns the oracle on, and relaxing and stopping only read.
-/

namespace LPRounding

set_option linter.unusedSectionVars false

variable {P K : Type} [Field K] [LinearOrder K] [IsStrictOrderedRing K] [FloorRing K]
  {same : P → P → Prop}

/-- The two problems differ in their oracles at most. -/
def Oracle.Home.Apart {S C N : Type} (h : Home P K S C N) (q q' : P) : Prop := ∃ o, q' = h.set q o

namespace Action

theorem Aloof.bind {α β : Type} {act : Action P K α} {next : α → Action P K β}
    (htrans : ∀ ⦃q q' q''⦄, same q q' → same q' q'' → same q q'') (ha : act.Aloof same)
    (hn : ∀ a, (next a).Aloof same) : Action.Aloof same (act >>= next) := by
  intro s b t h
  obtain ⟨a, u, hu, h⟩ := returns_bind.mp h
  obtain ⟨hp, hf, ht⟩ := ha hu
  obtain ⟨hp', hf', ht'⟩ := hn a h
  exact ⟨htrans hp hp', fun j => (hf' j).trans (hf j), ht'.trans ht⟩

theorem aloof_of_eq {α : Type} {act : Action P K α} (hrefl : ∀ q, same q q)
    (h : ∀ {s a t}, Returns act s a t → s = t) : act.Aloof same := by
  intro s a t hr
  obtain rfl := h hr
  exact ⟨hrefl _, fun _ => rfl, rfl⟩

theorem aloof_pure {α : Type} (hrefl : ∀ q, same q q) (a : α) :
    Action.Aloof (K := K) same (pure a) :=
  aloof_of_eq hrefl fun h => (returns_pure.mp h).2

theorem aloof_note (hrefl : ∀ q, same q q) {e : Event K} (he : e.taken? = none) :
    (note e).Aloof same := by
  intro s u t h
  obtain rfl := returns_note.mp h
  exact ⟨hrefl _, fun _ => rfl, by simp [he]⟩

theorem aloof_solveModel [Backend K] (hrefl : ∀ q, same q q) :
    (solveModel : Action P K Status).Aloof same := by
  intro s st t h
  simp only [solveModel, returns_bind, returns_onModel, returns_model] at h
  obtain ⟨_, _, ⟨m, hm, rfl⟩, _, _, ⟨rfl, rfl⟩, h⟩ := h
  obtain ⟨sol, rfl, -⟩ := Model.returns_solve hm
  split at h
  · split at h <;>
    · simp only [returns_bind, returns_note, returns_pure] at h
      obtain ⟨_, _, rfl, -, rfl⟩ := h
      exact ⟨hrefl _, fun _ => rfl, by simp [Event.taken?]⟩
  · obtain ⟨-, rfl⟩ := returns_pure.mp h
    exact ⟨hrefl _, fun _ => rfl, rfl⟩

end Action

variable [Roundable P K]

theorem RelaxRule.aloof (hrefl : ∀ q, same q q) (rule : RelaxRule) (row : Nat) :
    (rule.apply row : Action P K Bool).Aloof same := by
  refine Action.aloof_of_eq hrefl fun {s b t} h => ?_
  cases rule with
  | never | always | rows => exact (returns_pure.mp h).2
  | degreeAtMost k =>
    simp only [RelaxRule.apply, returns_bind, returns_lift, Action.returns_model,
      returns_pure] at h
    obtain ⟨_, _, ⟨rfl, rfl⟩, _, _, ⟨-, rfl⟩, -, rfl⟩ := h
    rfl

variable [Backend K]

theorem StopRule.aloof (hrefl : ∀ q, same q q) (rule : StopRule) :
    (rule.apply : Action P K Bool).Aloof same := by
  refine Action.aloof_of_eq hrefl fun {s b t} h => ?_
  cases rule with
  | allFixed | activeAtMost =>
    simp only [StopRule.apply, returns_bind, Action.returns_model, returns_pure] at h
    obtain ⟨_, _, ⟨rfl, rfl⟩, -, rfl⟩ := h
    rfl

theorem generateRows_aloof (hrefl : ∀ q, same q q)
    (htrans : ∀ ⦃q q' q''⦄, same q q' → same q' q'' → same q q'')
    (hf : (Roundable.feasible : Action P K Bool).Aloof same)
    (hs : (Roundable.separate : Action P K Nat).Aloof same) (passes : Nat) (st : Status) :
    (generateRows passes st : Action P K Status).Aloof same := by
  induction passes, st using generateRows.induct with
  | case1 =>
    intro s a t hr
    simp [generateRows] at hr
  | case2 passes ih =>
    refine Action.Aloof.bind htrans hf fun b => ?_
    cases b with
    | true => exact Action.aloof_pure hrefl _
    | false =>
      exact .bind htrans hs fun _ => .bind htrans (Action.aloof_solveModel hrefl) fun st => ih st
  | case3 passes st h₁ h₂ =>
    rw [generateRows.eq_3 _ _ h₁ h₂]
    exact .bind htrans (Action.aloof_note hrefl rfl) fun _ => Action.aloof_pure hrefl _

theorem SolveRule.aloof (hrefl : ∀ q, same q q)
    (htrans : ∀ ⦃q q' q''⦄, same q q' → same q' q'' → same q q'')
    (hf : (Roundable.feasible : Action P K Bool).Aloof same)
    (hs : (Roundable.separate : Action P K Nat).Aloof same) (rule : SolveRule) :
    (rule.apply : Action P K Status).Aloof same := by
  cases rule with
  | plain => exact Action.aloof_solveModel hrefl
  | generating =>
    exact .bind htrans (Action.aloof_solveModel hrefl) fun st =>
      generateRows_aloof hrefl htrans hf hs _ st

theorem ResolveRule.aloof (hrefl : ∀ q, same q q) {rule : SolveRule}
    (hrule : (rule.apply : Action P K Status).Aloof same) (n : Int) :
    (ResolveRule.apply (.always rule) : Action P K Status).Aloof same ∧
      (ResolveRule.apply (.failAfter n rule) : Action P K Status).Aloof same := by
  refine ⟨hrule, fun s st t h => ?_⟩
  simp only [ResolveRule.apply, returns_bind, returns_get] at h
  obtain ⟨_, _, ⟨rfl, rfl⟩, h⟩ := h
  split at h
  · simp only [returns_bind, returns_set] at h
    obtain ⟨_, _, rfl, h⟩ := h
    exact hrule (s := { s with resolves := s.resolves + 1 }) h
  · obtain ⟨-, rfl⟩ := returns_pure.mp h
    exact ⟨hrefl _, fun _ => rfl, rfl⟩

theorem Policies.Aloof.replace {p p' : Policies P K} {c : Choices K} (hp : p.Aloof same)
    (hrefl : ∀ q, same q q) (hsolve : ∀ rule : SolveRule, (rule.apply : Action P K _).Aloof same)
    (h : p.replace c = .ok p') : p'.Aloof same := by
  have hresolve (rule : ResolveRule) : (rule.apply : Action P K _).Aloof same := by
    cases rule with
    | always rule => exact (ResolveRule.aloof hrefl (hsolve rule) 0).1
    | failAfter n rule => exact (ResolveRule.aloof hrefl (hsolve rule) n).2
  obtain ⟨limit, rfl⟩ := Policies.exists_of_replace h
  constructor
  · cases hc : c.solve with
    | none => simpa [hc] using hp.solve
    | some rule => simpa [hc] using hsolve rule
  · cases hc : c.resolve with
    | none => simpa [hc] using hp.resolve
    | some rule => simpa [hc] using hresolve rule
  · intro i
    cases hc : c.relax with
    | none => simpa [hc] using hp.relax i
    | some rule => simpa [hc] using rule.aloof hrefl i
  · cases hc : c.stop with
    | none => simpa [hc] using hp.stop
    | some rule => simpa [hc] using rule.aloof hrefl
  · exact hp.setSolution

section Oracle

variable {S C N : Type} [Dice S K] {h : Oracle.Home P K S C N} {k : Checker P K C N}
  {tolerance : P → Tolerance K}

theorem Oracle.Home.Apart.trans (hset : ∀ q o o', h.set (h.set q o) o' = h.set q o')
    ⦃q q' q'' : P⦄ (h₁ : h.Apart q q') (h₂ : h.Apart q' q'') : h.Apart q q'' := by
  obtain ⟨o, rfl⟩ := h₁
  obtain ⟨o', rfl⟩ := h₂
  exact ⟨o', hset q o o'⟩

theorem Oracle.aloof_feasible : (Oracle.feasible h k tolerance).Aloof h.Apart := by
  intro s b t hr
  simp only [Oracle.feasible, returns_bind, Action.returns_model, Action.returns_onProblem,
    returns_pure] at hr
  obtain ⟨_, _, ⟨rfl, rfl⟩, found, _, ⟨q, hq, rfl⟩, -, rfl⟩ := hr
  obtain ⟨o, -, rfl⟩ := Oracle.returns_home hq
  exact ⟨⟨o, rfl⟩, fun _ => rfl, rfl⟩

theorem Oracle.aloof_separate : (Oracle.separate h k).Aloof h.Apart := by
  intro s i t hr
  simp only [Oracle.separate, returns_bind, Action.returns_problem, Action.returns_onProblem,
    Action.returns_onModel, Action.returns_note, Model.returns_appendRow, returns_pure] at hr
  obtain ⟨_, _, ⟨rfl, rfl⟩, v, _, ⟨q, hq, rfl⟩, _, _, ⟨m, ⟨-, rfl⟩, rfl⟩, _, _, rfl, -, rfl⟩ := hr
  obtain ⟨o, -, rfl⟩ := Oracle.returns_home hq
  exact ⟨⟨o, rfl⟩, fun _ => rfl, by simp [Event.taken?]⟩

end Oracle

end LPRounding
