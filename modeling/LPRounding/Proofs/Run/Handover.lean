import LPRounding.Proofs.Run.Stages
import LPRounding.Proofs.Run.Rules
import LPRounding.Run.Sink

/-!
What a run has handed over at each of its points. The columns that were fixed at one are read off
the events, in the order in which they were fixed; a problem that commits keeps its answer in step
with them, and an answer that is given up is withdrawn.
-/

namespace LPRounding

set_option linter.unusedSectionVars false

variable {P K : Type} [Field K] [LinearOrder K] [IsStrictOrderedRing K] [FloorRing K]

def Event.taken? : Event K → Option Nat
  | .rounded j v => if v = 1 then some j else none
  | _ => none

/-- The columns that were fixed at one, in the order in which they were fixed. -/
def taken (trace : List (Event K)) : List Nat := trace.filterMap Event.taken?

@[simp] theorem taken_append (tr : List (Event K)) (e : Event K) :
    taken (tr ++ [e]) = taken tr ++ e.taken?.toList := by
  cases he : e.taken? <;> simp [taken, he]

/-- A policy that changes a problem only as `same` allows and fixes no column. -/
def Action.Aloof {α : Type} (same : P → P → Prop) (act : Action P K α) : Prop :=
  ∀ ⦃s : Run P K⦄ ⦃a : α⦄ ⦃t : Run P K⦄, Returns act s a t → same s.problem t.problem ∧
    (∀ j, t.lp.fixedAt j = s.lp.fixedAt j) ∧ taken t.trace = taken s.trace

structure Policies.Aloof (p : Policies P K) (same : P → P → Prop) : Prop where
  solve : p.solve.Aloof same
  resolve : p.resolve.Aloof same
  relax : ∀ i, (p.relax i).Aloof same
  stop : p.stop.Aloof same
  setSolution : p.setSolution.Aloof same

namespace Engine

/-- The columns at one are those of the trace, and the problem says the same of them. -/
structure Account (tells : P → List Nat → Prop) (s : Run P K) : Prop where
  nodup : (taken s.trace).Nodup
  mem : ∀ j, j ∈ taken s.trace ↔ s.lp.fixedAt j = some 1
  problem : tells s.problem (taken s.trace)

/-- Single steps of a problem that keeps its answer in step with its columns. -/
structure Records [Roundable P K] (rule : Nat → Action P K (Option K)) (same : P → P → Prop)
    (tells : P → List Nat → Prop) : Prop where
  commits : RoundRule.Commits rule
  same : ∀ {q q' js}, same q q' → tells q js → tells q' js
  commit : ∀ {s t : Run P K} {j js}, Returns (Roundable.commit j) s () t → tells s.problem js →
    tells t.problem (js ++ [j]) ∧ t.lp = s.lp ∧ t.trace = s.trace

variable [Roundable P K] {p : Policies P K} {rule : Nat → Action P K (Option K)}
  {same : P → P → Prop} {tells : P → List Nat → Prop} {s t : Run P K}

theorem Account.of_aloof {α : Type} {act : Action P K α} {a : α} (hs : Account tells s)
    (hr : Records rule same tells) (ha : act.Aloof same) (h : Returns act s a t) :
    Account tells t := by
  obtain ⟨hp, hf, ht⟩ := ha h
  refine ⟨ht ▸ hs.nodup, fun j => ?_, ht ▸ hr.same hp hs.problem⟩
  rw [ht, hf]
  exact hs.mem j

theorem Account.of_eq (hs : Account tells s) (hp : t.problem = s.problem)
    (hf : ∀ j, t.lp.fixedAt j = s.lp.fixedAt j) (ht : taken t.trace = taken s.trace) :
    Account tells t := by
  refine ⟨ht ▸ hs.nodup, fun j => ?_, ht ▸ hp ▸ hs.problem⟩
  rw [ht, hf]
  exact hs.mem j

theorem Account.note {e : Event K} (hs : Account tells s) (he : e.taken? = none) :
    Account tells { s with trace := s.trace ++ [e] } :=
  hs.of_eq rfl (fun _ => rfl) (by simp [he])

theorem Account.report {st : Status} {u : Unit} (hs : Account tells s)
    (h : Returns (report st) s u t) : Account tells t := by
  simp only [Engine.report, returns_bind, Action.returns_model, Action.returns_note] at h
  obtain ⟨_, _, ⟨rfl, rfl⟩, rfl⟩ := h
  exact hs.note rfl

theorem Account.beginIteration {n : Nat} (hs : Account tells s)
    (h : Returns beginIteration s n t) : Account tells t := by
  simp only [Engine.beginIteration, returns_bind, returns_modify, returns_get, returns_pure] at h
  obtain ⟨_, _, rfl, _, _, ⟨rfl, rfl⟩, -, rfl⟩ := h
  exact hs.of_eq rfl (fun _ => rfl) rfl

theorem Account.relax {i : Nat} {u : Unit} (hs : Account tells s)
    (h : Returns (do Action.onModel (Model.relaxRow i); Action.note (.relaxed i)) s u t) :
    Account tells t := by
  simp only [returns_bind, Action.returns_onModel, Action.returns_note] at h
  obtain ⟨_, _, ⟨m, hm, rfl⟩, rfl⟩ := h
  obtain ⟨r, -, -, rfl⟩ := Model.returns_relaxRow.mp hm
  exact hs.of_eq rfl (fun _ => rfl) (by simp [Event.taken?])

/-- The one step at which the answer grows: the column joins the trace as its element joins the
answer. -/
theorem Account.fix {j : Nat} {v : K} {u : Run P K} (hs : Account tells s)
    (hr : Records rule same tells) (hv : Returns (rule j) s (some v) u)
    (h : Returns (do Action.onModel (Model.fixColumn j v); Action.note (.rounded j v)) u () t) :
    Account tells t := by
  simp only [returns_bind, Action.returns_onModel, Action.returns_note] at h
  obtain ⟨_, _, ⟨m, hm, rfl⟩, rfl⟩ := h
  obtain ⟨c, hc, hn, rfl⟩ := Model.returns_fixColumn.mp hm
  rcases hr.commits hv with ⟨hn, -⟩ | ⟨hz, rfl⟩ | ⟨ho, hcommit⟩
  · cases hn
  · -- a column at zero is of no account
    obtain rfl := Option.some.inj hz
    have htrace : taken (s.trace ++ [.rounded j (0 : K)]) = taken s.trace := by
      simp [Event.taken?]
    refine ⟨htrace ▸ hs.nodup, fun i => ?_, htrace ▸ hs.problem⟩
    rw [htrace, Model.fixedAt_set hc, hs.mem]
    by_cases hi : i = j
    · simp [hi, Model.fixedAt, hc, hn]
    · simp [hi]
  · -- the rule has just committed the column, which was open until now
    obtain rfl := Option.some.inj ho
    obtain ⟨htells, hlp, htr⟩ := hr.commit hcommit hs.problem
    have htrace : taken (u.trace ++ [.rounded j (1 : K)]) = taken s.trace ++ [j] := by
      simp [Event.taken?, htr]
    have hnew : j ∉ taken s.trace := by
      rw [hs.mem, ← hlp]
      simp [Model.fixedAt, hc, hn]
    refine ⟨?_, fun i => ?_, htrace ▸ htells⟩
    · rw [htrace, ← List.concat_eq_append]
      exact hs.nodup.concat hnew
    · rw [htrace, Model.fixedAt_set hc, List.mem_append, hs.mem, List.mem_singleton, hlp]
      by_cases hi : i = j <;> simp [hi]

def Accounted (tells : P → List Nat → Prop) (stage : Stage K) (s : Run P K) : Prop :=
  (¬ stage.IsLost ∧ Account tells s) ∨
    (stage.IsLost ∧ ∃ u : Run P K, Account tells u ∧ s.problem = Roundable.discard u.problem)

theorem returns_finish_account {out : Outcome K} (hs : Account tells s)
    (hr : Records rule same tells) (ha : p.Aloof same) (h : Returns (finish p) s out t) :
    out.status = .optimal ∧ Account tells t := by
  simp only [finish, returns_bind, returns_pure, returns_lift, returns_get,
    Action.returns_model, Action.returns_note] at h
  obtain ⟨_, u, hu, _, _, ⟨rfl, rfl⟩, _, _, ⟨-, rfl⟩, _, _, ⟨rfl, rfl⟩, _, _, rfl, rfl, rfl⟩ := h
  exact ⟨rfl, (hs.of_aloof hr ha.setSolution hu).note rfl⟩

theorem step_accounted (hr : Records rule same tells) (ha : p.Aloof same)
    {a b : Stage K × Run P K} (h : Step p rule a b) (hs : Accounted tells a.1 a.2) :
    Accounted tells b.1 b.2 := by
  have here {stage : Stage K} {u : Run P K} (hstage : ∀ out, stage ≠ .ended out)
      (hu : Account tells u) : Accounted tells stage u :=
    .inl ⟨fun ⟨out, ho, _⟩ => hstage out ho, hu⟩
  have there {stage : Stage K} {u : Run P K} (hstage : ∀ out, stage ≠ .ended out)
      (hu : Accounted tells stage u) : Account tells u :=
    hu.elim And.right fun ⟨⟨out, ho, _⟩, _⟩ => absurd ho (hstage out)
  cases h with
  | solve h =>
    simp only [Engine.solve, returns_bind, returns_pure] at h
    obtain ⟨_, u, hu, _, _, hrep, rfl, rfl⟩ := h
    exact here (by simp) (((there (by simp) hs).of_aloof hr ha.solve hu).report hrep)
  | enter hstop hn =>
    exact here (by simp) (((there (by simp) hs).of_aloof hr ha.stop hstop).beginIteration hn)
  | skip h =>
    have hs := there (by simp) hs
    rcases hr.commits h with ⟨-, rfl⟩ | ⟨hv, -⟩ | ⟨hv, -⟩
    · exact here (by simp) hs
    · cases hv
    · cases hv
  | fix hv h => exact here (by simp) ((there (by simp) hs).fix hr hv h)
  | idle => exact here (by simp) (there (by simp) hs)
  | busy hn => exact here (by simp) (there (by simp) hs)
  | leave hl h => exact here (by simp) ((there (by simp) hs).of_aloof hr (ha.relax _) h)
  | relax hl hb h =>
    exact here (by simp) (((there (by simp) hs).of_aloof hr (ha.relax _) hb).relax h)
  | limit hl => exact here (by simp) (there (by simp) hs)
  | out => exact here (by simp) (there (by simp) hs)
  | @resolve s _ n r l _ hn h =>
    simp only [Engine.resolve, returns_bind, returns_pure, Action.returns_note] at h
    obtain ⟨_, _, rfl, _, u, hu, _, _, hrep, rfl, rfl⟩ := h
    have hs : Account tells { s with trace := s.trace ++ [.iterated n r l] } :=
      (there (by simp) hs).note rfl
    exact here (by simp) ((hs.of_aloof hr ha.resolve hu).report hrep)
  | finish hstop h =>
    have hs := (there (by simp) hs).of_aloof hr ha.stop hstop
    obtain ⟨ho, ht⟩ := returns_finish_account hs hr ha h
    refine .inl ⟨?_, ht⟩
    rintro ⟨_, hout, hlost⟩
    obtain rfl := Stage.ended.inj hout
    simp [ho] at hlost
  | @lose s _ first st _ hst h =>
    have hs := there (by simp) hs
    simp only [giveUp, returns_bind, returns_pure, returns_modify, Action.returns_note] at h
    obtain ⟨_, _, rfl, _, _, rfl, rfl, rfl⟩ := h
    exact .inr ⟨⟨_, rfl, rfl⟩, s, hs, rfl⟩

theorem reached_accounted (hr : Records rule same tells) (ha : p.Aloof same)
    (hs : Account tells s) {stage : Stage K} (h : Reached p rule s stage t) :
    Accounted tells stage t := by
  refine h.induct (.inl ⟨?_, hs⟩) fun _ hstep => step_accounted hr ha hstep
  rintro ⟨out, ho, -⟩
  cases ho

theorem reached_keeps {kept : P → Prop} (hr : Records rule same fun q _ => kept q)
    (hd : ∀ {q}, kept q → kept (Roundable.discard q)) (ha : p.Aloof same)
    (hs : Account (fun q _ => kept q) s) {stage : Stage K} (h : Reached p rule s stage t) :
    kept t.problem := by
  rcases reached_accounted hr ha hs h with ⟨-, ht⟩ | ⟨-, u, hu, hq⟩
  · exact ht.problem
  · exact hq ▸ hd hu.problem

end Engine

end LPRounding
