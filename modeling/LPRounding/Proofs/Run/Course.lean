import LPRounding.Proofs.Fails
import LPRounding.Proofs.Run.Restrained

/-!
A run and its walk are the same thing. A walk goes on in one way at most, a run that returns has
walked to its end, and one that fails has walked to the operation at which it fails.
-/

namespace LPRounding.Engine

set_option linter.unusedSectionVars false

variable {P K : Type} [Scalar K] [Roundable P K]

inductive Halts (p : Policies P K) (rule : Nat → Action P K (Option K)) :
    Stage K × Run P K → Fault K → Run P K → Prop where
  | solve {s t : Run P K} {e : Fault K} : Fails (Engine.solve p) s e t →
      Halts p rule (.begun, s) e t
  | stop {s t : Run P K} {e : Fault K} {first : Bool} : Fails p.stop s e t →
      Halts p rule (.solved first .optimal, s) e t
  | ask {s t : Run P K} {e : Fault K} {n j r : Nat} {rest : List Nat} : Fails (rule j) s e t →
      Halts p rule (.rounding n (j :: rest) r, s) e t
  | fix {s t u : Run P K} {e : Fault K} {n j r : Nat} {rest : List Nat} {v : K} :
      Returns (rule j) s (some v) u → Fails (Action.onModel (Model.fixColumn j v)) u e t →
      Halts p rule (.rounding n (j :: rest) r, s) e t
  | relax {s t : Run P K} {e : Fault K} {n i l : Nat} {rest : List Nat} : p.limit l = false →
      Fails (p.relax i) s e t → Halts p rule (.relaxing n (i :: rest) l, s) e t
  | drop {s t u : Run P K} {e : Fault K} {n i l : Nat} {rest : List Nat} : p.limit l = false →
      Returns (p.relax i) s true u → Fails (Action.onModel (Model.relaxRow i)) u e t →
      Halts p rule (.relaxing n (i :: rest) l, s) e t
  /-- Nothing was fixed or relaxed. -/
  | stuck {s : Run P K} {n : Nat} :
      Halts p rule (.passed n 0 0, s)
        (.stuck n s.lp.name s.lp.activeColumns.length s.lp.activeRows.length)
        { s with trace := s.trace ++ [.iterated n 0 0] }
  | resolve {s t : Run P K} {e : Fault K} {n r l : Nat} : ¬ (r = 0 ∧ l = 0) →
      Fails (do Action.note (.iterated n r l); Engine.resolve p) s e t →
      Halts p rule (.passed n r l, s) e t
  | finish {s t u : Run P K} {e : Fault K} {first : Bool} : Returns p.stop s true u →
      Fails (Engine.finish p) u e t → Halts p rule (.solved first .optimal, s) e t

/-- The walk from a point leads to an operation that fails. -/
def Falls (p : Policies P K) (rule : Nat → Action P K (Option K)) (a : Stage K × Run P K)
    (e : Fault K) (t : Run P K) : Prop :=
  ∃ b, Walk p rule a b ∧ Halts p rule b e t

variable {p : Policies P K} {rule : Nat → Action P K (Option K)} {s t u : Run P K}
  {a b c : Stage K × Run P K} {e : Fault K}

theorem Halts.falls (h : Halts p rule a e t) : Falls p rule a e t := ⟨a, .refl, h⟩

theorem Falls.of_walk (hw : Walk p rule a b) (h : Falls p rule b e t) : Falls p rule a e t := by
  obtain ⟨c, hc, hh⟩ := h
  exact ⟨c, hw.trans hc, hh⟩

theorem Step.unique (h : Step p rule a b) (h' : Step p rule a c) : b = c := by
  cases h with
  | solve h =>
    cases h' with
    | solve h' =>
      obtain ⟨rfl, rfl⟩ := h.unique h'
      rfl
  | enter hb hn =>
    cases h' with
    | enter hb' hn' =>
      obtain ⟨-, rfl⟩ := hb.unique hb'
      obtain ⟨rfl, rfl⟩ := hn.unique hn'
      rfl
    | finish hb' => cases (hb.unique hb').1
    | lose hn' => exact absurd rfl hn'
  | skip h =>
    cases h' with
    | skip h' =>
      obtain ⟨-, rfl⟩ := h.unique h'
      rfl
    | fix hv => cases (h.unique hv).1
  | fix hv h =>
    cases h' with
    | skip h' => cases (hv.unique h').1
    | fix hv' h' =>
      obtain ⟨hvalue, rfl⟩ := hv.unique hv'
      obtain rfl := Option.some.inj hvalue
      obtain ⟨-, rfl⟩ := h.unique h'
      rfl
  | idle =>
    cases h' with
    | idle => rfl
    | busy hr => exact absurd rfl hr
  | busy hr =>
    cases h' with
    | idle => exact absurd rfl hr
    | busy => rfl
  | leave hl h =>
    cases h' with
    | leave _ h' =>
      obtain ⟨-, rfl⟩ := h.unique h'
      rfl
    | relax _ hb => cases (h.unique hb).1
    | limit hl' => cases hl.symm.trans hl'
  | relax hl hb h =>
    cases h' with
    | leave _ h' => cases (hb.unique h').1
    | relax _ hb' h' =>
      obtain ⟨-, rfl⟩ := hb.unique hb'
      obtain ⟨-, rfl⟩ := h.unique h'
      rfl
    | limit hl' => cases hl.symm.trans hl'
  | limit hl =>
    cases h' with
    | leave hl' => cases hl.symm.trans hl'
    | relax hl' => cases hl.symm.trans hl'
    | limit => rfl
  | out =>
    cases h' with
    | out => rfl
  | resolve _ h =>
    cases h' with
    | resolve _ h' =>
      obtain ⟨rfl, rfl⟩ := h.unique h'
      rfl
  | finish hb h =>
    cases h' with
    | enter hb' => cases (hb.unique hb').1
    | finish hb' h' =>
      obtain ⟨-, rfl⟩ := hb.unique hb'
      obtain ⟨rfl, rfl⟩ := h.unique h'
      rfl
    | lose hn' => exact absurd rfl hn'
  | lose hn h =>
    cases h' with
    | enter => exact absurd rfl hn
    | finish => exact absurd rfl hn
    | lose _ h' =>
      obtain ⟨rfl, rfl⟩ := h.unique h'
      rfl

/-- Of two points that a walk comes to one leads to the other. -/
theorem Walk.comparable (h : Walk p rule a b) (h' : Walk p rule a c) :
    Walk p rule b c ∨ Walk p rule c b :=
  Relation.ReflTransGen.total_of_right_unique (fun _ _ _ => Step.unique) h h'

theorem Walk.eq_of_still (h : Walk p rule a b) (hn : ∀ c, ¬ Step p rule a c) : b = a := by
  rcases Relation.ReflTransGen.cases_head h with rfl | ⟨c, hc, -⟩
  · rfl
  · exact absurd hc (hn c)

theorem not_step_of_ended {out : Outcome K} : ¬ Step p rule (.ended out, s) b := nofun

theorem not_step_of_vain {n : Nat} : ¬ Step p rule (.passed n 0 0, s) b := by
  intro h
  cases h with
  | resolve hn => exact hn ⟨rfl, rfl⟩

theorem falls_of_roundColumns {columns : List Nat} {n r : Nat}
    (h : Fails (roundColumns rule columns r) s e t) :
    Falls p rule (.rounding n columns r, s) e t := by
  induction columns generalizing s r with
  | nil => simp [roundColumns] at h
  | cons j rest ih =>
    unfold roundColumns at h
    rcases fails_bind.mp h with h | ⟨v, u, hv, h⟩
    · exact (Halts.ask h).falls
    cases v with
    | none => exact (ih h).of_walk (.single (.skip hv))
    | some v =>
      rcases fails_bind.mp h with h | ⟨_, w, hw, h⟩
      · exact (Halts.fix hv h).falls
      rcases fails_bind.mp h with h | ⟨_, x, hx, h⟩
      · simp at h
      · exact (ih h).of_walk (.single (.fix hv (returns_bind.mpr ⟨_, w, hw, hx⟩)))

theorem falls_of_relaxRows {rows : List Nat} {n l : Nat} (h : Fails (relaxRows p rows l) s e t) :
    Falls p rule (.relaxing n rows l, s) e t := by
  induction rows generalizing s l with
  | nil => simp [relaxRows] at h
  | cons i rest ih =>
    unfold relaxRows at h
    split at h
    · simp at h
    next hl =>
    have hl : p.limit l = false := by simpa using hl
    rcases fails_bind.mp h with h | ⟨b, u, hb, h⟩
    · exact (Halts.relax hl h).falls
    cases b with
    | false => exact (ih h).of_walk (.single (.leave hl hb))
    | true =>
      rw [if_pos rfl] at h
      rcases fails_bind.mp h with h | ⟨_, w, hw, h⟩
      · exact (Halts.drop hl hb h).falls
      rcases fails_bind.mp h with h | ⟨_, x, hx, h⟩
      · simp at h
      · exact (ih h).of_walk (.single (.relax hl hb (returns_bind.mpr ⟨_, w, hw, hx⟩)))

theorem falls_of_iterate {first : Bool} (hb : Returns p.stop s false u)
    (h : Fails (iterate p) u e t) : Falls p p.ask (.solved first .optimal, s) e t := by
  unfold iterate at h
  rcases fails_bind.mp h with h | ⟨n, v, hv, h⟩
  · simp [beginIteration] at h
  refine Falls.of_walk (.single (.enter hb hv)) ?_
  rw [round_eq] at h
  rcases fails_bind.mp h with h | ⟨r, w, hw, h⟩
  · simp only [fails_bind, Action.fails_model, Action.returns_model, false_or] at h
    obtain ⟨_, _, ⟨rfl, rfl⟩, h⟩ := h
    exact falls_of_roundColumns h
  simp only [returns_bind, Action.returns_model] at hw
  obtain ⟨_, _, ⟨rfl, rfl⟩, hw⟩ := hw
  refine Falls.of_walk (walk_roundColumns hw) ?_
  by_cases hr : r = 0
  · subst hr
    refine Falls.of_walk (.single .idle) ?_
    simp only [if_true, relax] at h
    rcases fails_bind.mp h with h | ⟨l, x, hx, h⟩
    · simp only [fails_bind, Action.fails_model, Action.returns_model, false_or] at h
      obtain ⟨_, _, ⟨rfl, rfl⟩, h⟩ := h
      exact falls_of_relaxRows h
    simp only [returns_bind, Action.returns_model] at hx
    obtain ⟨_, _, ⟨rfl, rfl⟩, hx⟩ := hx
    refine Falls.of_walk (walk_relaxRows hx) ?_
    rcases fails_bind.mp h with h | ⟨_, y, hy, hlast⟩
    · simp at h
    by_cases hl : l = 0
    · -- the iteration did nothing and says so
      subst hl
      simp only [and_self, if_true, fails_bind, fails_throw, Action.fails_model,
        Action.returns_model, returns_throw, false_or, false_and, exists_false, or_false] at hlast
      obtain ⟨_, _, ⟨rfl, rfl⟩, rfl, rfl⟩ := hlast
      obtain rfl := Action.returns_note.mp hy
      exact Halts.stuck.falls
    · simp only [hl, and_false, if_false] at hlast
      exact (Halts.resolve (fun hn => hl hn.2) (fails_bind.mpr (.inr ⟨_, y, hy, hlast⟩))).falls
  · refine Falls.of_walk (.single (.busy hr)) ?_
    simp only [hr, if_false, false_and] at h
    rcases fails_bind.mp h with h | ⟨l, x, hx, h⟩
    · simp at h
    obtain ⟨rfl, rfl⟩ := returns_pure.mp hx
    rcases fails_bind.mp h with h | ⟨_, y, hy, h⟩
    · simp at h
    exact (Halts.resolve (fun hn => hr hn.1) (fails_bind.mpr (.inr ⟨_, y, hy, h⟩))).falls

theorem Move.iterations_le (h : Move p a b) : a.2.iterations ≤ b.2.iterations := by
  cases h with
  | solve h => exact h.iterations.ge
  | enter _ _ hit => exact hit.symm ▸ Nat.le_succ _
  | skip _ h => exact h.2.ge
  | fix _ _ hit => exact hit.ge
  | idle => exact le_rfl
  | busy => exact le_rfl
  | leave _ h => exact h.2.ge
  | relax _ _ _ hit => exact hit.ge
  | pass => exact le_rfl
  | resolve _ h => exact h.iterations.ge
  | ended h => exact h.2.ge

theorem Walk.iterations_le (hp : p.Restrained) (h : Walk p p.ask a b) :
    a.2.iterations ≤ b.2.iterations := by
  induction h with
  | refl => exact le_rfl
  | tail _ hstep ih => exact ih.trans (hstep.move hp).iterations_le

theorem iterations_lt (hp : p.Restrained) {first again : Bool} {st st' : Status}
    (h : Relation.TransGen (Step p p.ask) (.solved first st, s) (.solved again st', t)) :
    s.iterations < t.iterations := by
  obtain ⟨c, hstep, hwalk⟩ := Relation.TransGen.head'_iff.mp h
  cases hstep.move hp with
  | enter _ _ hit =>
    have hle := Walk.iterations_le hp hwalk
    exact (Nat.lt_succ_self _).trans_le (hit.symm.le.trans hle)
  | ended => cases Walk.eq_of_still hwalk fun _ => not_step_of_ended

theorem falls_of_loop (hp : p.Restrained) {first : Bool} {passes : Nat}
    (h : Fails (loop p (iterate p) passes) s e t) :
    Falls p p.ask (.solved first .optimal, s) e t ∨
      e = .unfinished ∧ s.iterations + passes ≤ t.iterations ∧
        ∃ again, Walk p p.ask (.solved first .optimal, s) (.solved again .optimal, t) := by
  induction passes generalizing s first with
  | zero =>
    obtain ⟨rfl, rfl⟩ := fails_throw.mp h
    exact .inr ⟨rfl, le_rfl, first, .refl⟩
  | succ passes ih =>
    unfold loop at h
    rcases fails_bind.mp h with h | ⟨b, u, hb, h⟩
    · exact .inl (Halts.stop h).falls
    cases b with
    | true => exact .inl (Halts.finish hb h).falls
    | false =>
      rcases fails_bind.mp h with h | ⟨st, v, hv, h⟩
      · exact .inl (falls_of_iterate hb h)
      have hwalk : Relation.TransGen (Step p p.ask) (.solved first .optimal, s)
          (.solved false st, v) := walk_iterate hb hv
      split at h
      · refine (ih h).imp (.of_walk hwalk.to_reflTransGen) fun hu => ⟨hu.1, ?_, ?_⟩
        · have := iterations_lt hp hwalk
          have := hu.2.1
          omega
        · obtain ⟨again, hw⟩ := hu.2.2
          exact ⟨again, hwalk.to_reflTransGen.trans hw⟩
      · simp [giveUp] at h

theorem falls_of_run [Backend K] (hp : p.Restrained) (h : Fails (run p) s e t) :
    Falls p p.ask (.begun, s) e t ∨
      e = .unfinished ∧ s.iterations + Backend.passes K ≤ t.iterations ∧
        ∃ first, Reached p p.ask s (.solved first .optimal) t := by
  unfold run start at h
  rcases fails_bind.mp h with h | ⟨st, u, hu, h⟩
  · exact .inl (Halts.solve h).falls
  have hsolve : Step p p.ask (.begun, s) (.solved true st, u) := .solve hu
  split at h
  · refine (falls_of_loop hp h).imp (.of_walk (.single hsolve)) fun hf => ⟨hf.1, ?_, ?_⟩
    · exact (Nat.add_le_add_right (hsolve.move hp).iterations_le _).trans hf.2.1
    · obtain ⟨again, hw⟩ := hf.2.2
      exact ⟨again, .head hsolve hw⟩
  · simp [giveUp] at h

end LPRounding.Engine
