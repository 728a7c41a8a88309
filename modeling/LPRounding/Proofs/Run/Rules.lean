import LPRounding.Proofs.Run.Invariant
import LPRounding.Run.Policy

/-!
What the rounding rules decide about a column. They read the point of the last solve; a rule that
commits also takes the element of the column into the answer.
-/

namespace LPRounding

set_option linter.unusedSectionVars false

variable {P K : Type} [Field K] [LinearOrder K] [IsStrictOrderedRing K] [FloorRing K]

variable [Roundable P K] {s t : Run P K} {j : Nat}

namespace RoundRule

theorem returns_atValue {value : K} {r : Option K} (h : Returns (atValue value j) s r t) :
    s = t ∧ ∃ x, s.lp.columnValue j = .ok x ∧
      r = if |x - value| < (Roundable.tolerance s.problem).epsilon then some value else none := by
  simp only [atValue, tolerance, returns_bind, returns_pure, returns_lift, Action.returns_model,
    Action.returns_problem] at h
  obtain ⟨_, _, ⟨rfl, rfl⟩, x, _, ⟨hx, rfl⟩, _, _, ⟨_, _, ⟨rfl, rfl⟩, rfl, rfl⟩, rfl, rfl⟩ := h
  exact ⟨rfl, x, hx, by simp⟩

theorem returns_atHalf {r : Option K} (h : Returns (atHalf j) s r t) :
    s = t ∧ ∃ x, s.lp.columnValue j = .ok x ∧
      r = if 1 / 2 - (Roundable.tolerance s.problem).epsilon ≤ x then some 1 else none := by
  simp only [atHalf, tolerance, returns_bind, returns_pure, returns_lift, Action.returns_model,
    Action.returns_problem] at h
  obtain ⟨_, _, ⟨rfl, rfl⟩, x, _, ⟨hx, rfl⟩, _, _, ⟨_, _, ⟨rfl, rfl⟩, rfl, rfl⟩, rfl, rfl⟩ := h
  exact ⟨rfl, x, hx, by simp⟩

theorem returns_zeroThenOne {r : Option K} (h : Returns (zeroThenOne.apply j) s r t) :
    s = t ∧ ∃ x, s.lp.columnValue j = .ok x ∧
      r = if |x| < (Roundable.tolerance s.problem).epsilon then some 0
        else if |x - 1| < (Roundable.tolerance s.problem).epsilon then some 1 else none := by
  simp only [zeroThenOne, RoundRule.apply, applyFirst, returns_bind] at h
  obtain ⟨v, u, hv, h⟩ := h
  obtain ⟨rfl, x, hx, rfl⟩ := returns_atValue hv
  rw [sub_zero] at h
  refine ⟨?_, x, hx, ?_⟩
  · split at h
    · exact (returns_pure.mp h).2
    · obtain ⟨w, u, hw, h⟩ := returns_bind.mp h
      obtain ⟨rfl, -⟩ := returns_atValue hw
      split at h <;> exact (returns_pure.mp h).2
  · by_cases h0 : |x| < (Roundable.tolerance s.problem).epsilon
    · simp only [h0, if_true, returns_pure] at h ⊢
      exact h.1.symm
    · simp only [h0, if_false, returns_bind] at h ⊢
      obtain ⟨w, u, hw, h⟩ := h
      obtain ⟨rfl, y, hy, rfl⟩ := returns_atValue hw
      obtain rfl := Except.ok.inj (hx.symm.trans hy)
      split at h <;> simp_all

/-- A rule that fixes a column at zero, or at one when it takes the element of the column into the
answer. -/
def Commits (rule : Nat → Action P K (Option K)) : Prop :=
  ∀ {s t : Run P K} {j : Nat} {r : Option K}, Returns (rule j) s r t →
    (r = none ∧ s = t) ∨ (r = some 0 ∧ s = t) ∨
      (r = some 1 ∧ Returns (Roundable.commit j) s () t)

theorem commits_committing {take : Nat → Action P K (Option K)}
    (htake : ∀ {s t j r}, Returns (take j) s r t → s = t ∧ (r = none ∨ r = some 1)) :
    Commits (committing take) := by
  intro s t j r h
  simp only [committing, returns_bind] at h
  obtain ⟨v, u, hv, h⟩ := h
  obtain ⟨rfl, x, -, rfl⟩ := returns_atValue hv
  by_cases hz : |x - 0| < (Roundable.tolerance s.problem).epsilon
  · rw [if_pos hz] at h
    obtain ⟨rfl, rfl⟩ := returns_pure.mp h
    exact .inr (.inl ⟨rfl, rfl⟩)
  · rw [if_neg hz] at h
    obtain ⟨w, u, hw, h⟩ := returns_bind.mp h
    obtain ⟨rfl, rfl | rfl⟩ := htake hw
    · simp only [Option.isSome_none, Bool.false_eq_true, if_false, returns_pure] at h
      exact .inl ⟨h.1.symm, h.2⟩
    · simp only [Option.isSome_some, if_true, returns_bind, returns_pure] at h
      obtain ⟨_, v, hc, rfl, rfl⟩ := h
      exact .inr (.inr ⟨rfl, hc⟩)

theorem commits_commitHalf : Commits (P := P) (K := K) commitHalf.apply := by
  intro s t j r h
  refine commits_committing ?_ (by simpa [RoundRule.apply] using h)
  intro s t j r h
  obtain ⟨rfl, x, -, rfl⟩ := returns_atHalf h
  split <;> simp

theorem dropped_of_committing {take : Nat → Action P K (Option K)}
    (htake : ∀ {s t j}, ¬ Returns (take j) s (some 0) t)
    (h : Returns (committing take j) s (some 0) t) :
    ∃ x, s.lp.columnValue j = .ok x ∧ |x| < (Roundable.tolerance s.problem).epsilon := by
  simp only [committing, returns_bind] at h
  obtain ⟨v, u, hv, h⟩ := h
  obtain ⟨rfl, x, hx, rfl⟩ := returns_atValue hv
  rw [sub_zero] at h
  refine ⟨x, hx, ?_⟩
  by_contra hz
  rw [if_neg hz] at h
  obtain ⟨w, u, hw, h⟩ := returns_bind.mp h
  split at h <;> simp only [returns_bind, returns_pure] at h
  · obtain ⟨_, _, -, rfl, -⟩ := h
    exact htake hw
  · obtain ⟨rfl, -⟩ := h
    exact htake hw

theorem dropped_of_commitHalf (h : Returns (commitHalf.apply j) s (some 0) t) :
    ∃ x, s.lp.columnValue j = .ok x ∧ |x| < (Roundable.tolerance s.problem).epsilon := by
  refine dropped_of_committing (fun h => ?_) (by simpa [RoundRule.apply] using h)
  obtain ⟨-, x, -, hx⟩ := returns_atHalf h
  split at hx <;> simp at hx

theorem taken_of_committing {take : Nat → Action P K (Option K)}
    (h : Returns (committing take j) s (some 1) t) : ∃ u, Returns (take j) s (some 1) u := by
  simp only [committing, returns_bind] at h
  obtain ⟨v, u, hv, h⟩ := h
  obtain ⟨rfl, x, -, rfl⟩ := returns_atValue hv
  split at h
  · next value hz =>
    obtain ⟨hone, -⟩ := returns_pure.mp h
    split at hz
    · exact absurd (Option.some.inj hz |>.trans (Option.some.inj hone)) zero_ne_one
    · cases hz
  · obtain ⟨w, u, hw, h⟩ := returns_bind.mp h
    split at h
    · obtain ⟨_, _, -, h⟩ := returns_bind.mp h
      obtain ⟨rfl, -⟩ := returns_pure.mp h
      exact ⟨u, hw⟩
    · obtain ⟨rfl, -⟩ := returns_pure.mp h
      exact ⟨u, hw⟩

theorem declined_of_committing {take : Nat → Action P K (Option K)}
    (h : Returns (committing take j) s none t) :
    (∃ x, s.lp.columnValue j = .ok x ∧ (Roundable.tolerance s.problem).epsilon ≤ |x|) ∧
      ∃ u, Returns (take j) s none u := by
  simp only [committing, returns_bind] at h
  obtain ⟨v, u, hv, h⟩ := h
  obtain ⟨rfl, x, hx, rfl⟩ := returns_atValue hv
  rw [sub_zero] at h
  split at h
  · obtain ⟨hn, -⟩ := returns_pure.mp h
    cases hn
  · next hz =>
    obtain ⟨w, u, hw, h⟩ := returns_bind.mp h
    refine ⟨⟨x, hx, ?_⟩, u, ?_⟩
    · by_contra hlt
      simp [not_le.mp hlt] at hz
    · split at h
      · obtain ⟨_, _, -, h⟩ := returns_bind.mp h
        obtain ⟨rfl, -⟩ := returns_pure.mp h
        exact hw
      · obtain ⟨rfl, -⟩ := returns_pure.mp h
        exact hw

theorem returns_commitHalf_none (h : Returns (commitHalf.apply j) s none t) :
    ∃ x, s.lp.columnValue j = .ok x ∧ (Roundable.tolerance s.problem).epsilon ≤ |x| ∧
      x < 1 / 2 - (Roundable.tolerance s.problem).epsilon := by
  obtain ⟨⟨x, hx, hfar⟩, u, hu⟩ := declined_of_committing (by simpa [RoundRule.apply] using h)
  obtain ⟨-, y, hy, hnone⟩ := returns_atHalf hu
  obtain rfl := Except.ok.inj (hx.symm.trans hy)
  refine ⟨x, hx, hfar, ?_⟩
  by_contra hle
  rw [if_pos (not_lt.mp hle)] at hnone
  cases hnone

theorem far_of_commitHalf_none (h : Returns (commitHalf.apply j) s none t) {x : K}
    (hx : s.lp.columnValue j = .ok x) (h0 : 0 ≤ x) :
    ¬ (x < (Roundable.tolerance s.problem).epsilon ∨
      1 / 2 - (Roundable.tolerance s.problem).epsilon ≤ x) := by
  obtain ⟨y, hy, hfar, hhalf⟩ := returns_commitHalf_none h
  obtain rfl := Except.ok.inj (hx.symm.trans hy)
  rw [abs_of_nonneg h0] at hfar
  rintro (hnear | hnear)
  · exact absurd hnear (not_lt.mpr hfar)
  · exact absurd hnear (not_le.mpr hhalf)

theorem returns_commitOne_none (h : Returns (commitOne.apply j) s none t) :
    ∃ x, s.lp.columnValue j = .ok x ∧ (Roundable.tolerance s.problem).epsilon ≤ |x| ∧
      (Roundable.tolerance s.problem).epsilon ≤ |x - 1| := by
  obtain ⟨⟨x, hx, hfar⟩, u, hu⟩ := declined_of_committing (by simpa [RoundRule.apply] using h)
  obtain ⟨-, y, hy, hnone⟩ := returns_atValue hu
  obtain rfl := Except.ok.inj (hx.symm.trans hy)
  refine ⟨x, hx, hfar, ?_⟩
  by_contra hle
  rw [if_pos (not_le.mp hle)] at hnone
  cases hnone

theorem taken_of_commitHalf (h : Returns (commitHalf.apply j) s (some 1) t) :
    ∃ x, s.lp.columnValue j = .ok x ∧
      1 / 2 - (Roundable.tolerance s.problem).epsilon ≤ x := by
  obtain ⟨u, hu⟩ := taken_of_committing (by simpa [RoundRule.apply] using h)
  obtain ⟨-, x, hx, hone⟩ := returns_atHalf hu
  split at hone
  · next hle => exact ⟨x, hx, hle⟩
  · cases hone

theorem commits_commitOne : Commits (P := P) (K := K) commitOne.apply := by
  intro s t j r h
  refine commits_committing ?_ (by simpa [RoundRule.apply] using h)
  intro s t j r h
  obtain ⟨rfl, x, -, rfl⟩ := returns_atValue h
  split <;> simp

theorem near_of_commitOne {v : K} (h : Returns (commitOne.apply j) s (some v) t) :
    (v = 0 ∨ v = 1) ∧ ∃ x, s.lp.columnValue j = .ok x ∧
      |x - v| < (Roundable.tolerance s.problem).epsilon := by
  have hnear {s t : Run P K} {j : Nat} {value w : K} (h : Returns (atValue value j) s (some w) t) :
      value = w ∧ ∃ x, s.lp.columnValue j = .ok x ∧
        |x - w| < (Roundable.tolerance s.problem).epsilon := by
    obtain ⟨-, x, hx, hw⟩ := returns_atValue h
    split at hw
    · next hlt =>
      obtain rfl := Option.some.inj hw
      exact ⟨rfl, x, hx, hlt⟩
    · cases hw
  rcases commits_commitOne h with ⟨hv, -⟩ | ⟨hv, -⟩ | ⟨hv, -⟩
  · cases hv
  · obtain rfl := Option.some.inj hv
    refine ⟨.inl rfl, ?_⟩
    simpa only [sub_zero] using dropped_of_committing (fun h => zero_ne_one (hnear h).1.symm)
      (by simpa [RoundRule.apply] using h)
  · obtain rfl := Option.some.inj hv
    obtain ⟨u, hu⟩ := taken_of_committing (by simpa [RoundRule.apply] using h)
    exact ⟨.inr rfl, (hnear hu).2⟩

variable {rule : Nat → Action P K (Option K)}

theorem Commits.skip (hc : Commits rule) (h : Returns (rule j) s none t) : s.Agree t := by
  rcases hc h with ⟨-, rfl⟩ | ⟨h, -⟩ | ⟨h, -⟩
  · exact ⟨rfl, rfl⟩
  · cases h
  · cases h

/-- What dropping a column keeps and what taking one keeps, the rule keeps. -/
theorem Commits.fix (hc : Commits rule) (pass : P → Model K → Prop)
    (drop : ∀ {q m m' j}, pass q m → Returns (Model.fixColumn j 0) m () m' → pass q m')
    (take : ∀ {s t : Run P K} {j m'}, pass s.problem s.lp → Returns (Roundable.commit j) s () t →
      Returns (Model.fixColumn j 1) t.lp () m' → pass t.problem m') {v : K} {m : Model K}
    (h : pass s.problem s.lp) (hr : Returns (rule j) s (some v) t)
    (hf : Returns (Model.fixColumn j v) t.lp () m) : pass t.problem m := by
  rcases hc hr with ⟨hv, -⟩ | ⟨hv, rfl⟩ | ⟨hv, hcommit⟩
  · cases hv
  · obtain rfl := Option.some.inj hv
    exact drop h hf
  · obtain rfl := Option.some.inj hv
    exact take h hcommit hf

end RoundRule

end LPRounding
