import LPRounding.Proofs.Run.Invariant
import LPRounding.Proofs.Run.Separation
import LPRounding.Proofs.Run.Rounds

/-!
What a dependent run keeps. Such a run changes its problem and forgets its model, so an invariant is
about the problem alone: it must survive a solve, a rounding step and the building of a model.
-/

namespace LPRounding

set_option linter.unusedSectionVars false

variable {P K : Type} [Field K] [LinearOrder K] [IsStrictOrderedRing K] [FloorRing K]
  [Roundable P K]

theorem Oracle.generating_problem {S C N : Type} [Dice S K] [Backend K] {h : Home P K S C N}
    {k : Checker P K C N} {tolerance : P → Tolerance K}
    (hf : (Roundable.feasible : Action P K Bool) = Oracle.feasible h k tolerance)
    (hs : (Roundable.separate : Action P K Nat) = Oracle.separate h k) (kept : P → Prop)
    (hset : ∀ q o, kept q → kept (h.set q o)) {s t : Run P K} {st : Status}
    (hk : kept s.problem) (hr : Returns SolveRule.generating.apply s st t) : kept t.problem := by
  have hsolve {u v : Run P K} {st : Status} (hu : kept u.problem)
      (hv : Returns Action.solveModel u st v) : kept v.problem :=
    (Action.returns_solveModel hv).1 ▸ hu
  obtain ⟨u, hu, hend⟩ := exists_of_generating (motive := fun _ u => kept u.problem) (hsolve hk)
    (fun {t u v w i st} ht hf' hs' => by
      obtain ⟨-, ⟨o, ho, -⟩, -⟩ := Oracle.returns_feasible (hf ▸ hf')
      obtain ⟨⟨o', ho'⟩, -⟩ := Oracle.returns_separate (hs ▸ hs')
      exact hsolve (ho' ▸ hset _ o' (ho ▸ hset _ o ht))) hr
  rcases hend with ⟨-, hb⟩ | ⟨-, rfl⟩
  · obtain ⟨-, ⟨o, ho, -⟩, -⟩ := Oracle.returns_feasible (hf ▸ hb)
    exact ho ▸ hset _ o hu
  · exact hu

namespace Engine

/-- Single steps of a dependent run that rounds by `rule`. -/
structure Carries (p : Policies P K) (rule : Action P K Unit) (kept : P → Prop) : Prop where
  solve : ∀ {s t st}, kept s.problem → Returns p.solve s st t → kept t.problem
  resolve : ∀ {s t st}, kept s.problem → Returns p.resolve s st t → kept t.problem
  round : ∀ {s t}, kept s.problem → Returns rule s () t → kept t.problem
  init : ∀ {s t}, kept s.problem → Returns p.init s () t → kept t.problem
  stop : ∀ {s t b}, Returns p.stop s b t → s = t

variable {p : Policies P K} {rule : Action P K Unit} {kept : P → Prop} {s t : Run P K}

theorem Carries.settle (k : Carries p rule kept) {n : Nat} {st : Status} (hs : kept s.problem)
    (h : Returns (settle p n) s st t) : kept t.problem := by
  simp only [Engine.settle, report, returns_bind, returns_pure, Action.returns_model,
    Action.returns_note] at h
  obtain ⟨st', u, hu, _, _, ⟨_, _, ⟨rfl, rfl⟩, rfl⟩, -, rfl⟩ := h
  show kept u.problem
  cases n with
  | zero => exact k.solve hs hu
  | succ n => exact k.resolve hs hu

theorem Carries.turn (k : Carries p rule kept) (hp : p.rounding = .wholePoint rule)
    (hs : kept s.problem) (h : Returns (turn p) s () t) : kept t.problem := by
  simp only [Engine.turn, dependentRound, hp, returns_bind, Action.returns_model,
    Action.returns_note, Action.returns_onModel] at h
  obtain ⟨_, u, hu, _, v, ⟨_, w, hw, _, _, ⟨_, -, rfl⟩, hv⟩, _, _, ⟨rfl, rfl⟩, rfl⟩ := h
  show kept v.problem
  have hround : kept w.problem := by
    refine k.round ?_ hw
    rw [(returns_beginIteration hu).1]
    exact hs
  exact k.init (by exact hround) hv

theorem iterateDependent_carries (k : Carries p rule kept) (hp : p.rounding = .wholePoint rule)
    {st : Status} (h : Returns (iterateDependent p) s st t) (hs : kept s.problem) :
    kept t.problem := by
  have heq : iterateDependent p = Engine.turn p >>= fun _ => resolve p := by
    simp only [iterateDependent, Engine.turn, bind_assoc]
  rw [heq] at h
  obtain ⟨_, u, hu, h⟩ := returns_bind.mp h
  obtain ⟨v, hv, ha, -⟩ := returns_resolve h
  rw [ha]
  exact k.resolve (k.turn hp hs hu) hv

theorem Carries.of_turns (k : Carries p rule kept) (hp : p.rounding = .wholePoint rule)
    (hs : kept s.problem) {n : Nat} (h : Turns p s (.built n) t) : kept t.problem := by
  have hall {x : Phase K × Run P K} (hx : Relation.ReflTransGen (Turn p) (.built 0, s) x) :
      (∀ out, x.1 ≠ .ended out) → kept x.2.problem := by
    induction hx with
    | refl => exact fun _ => hs
    | tail _ hxy ih =>
      intro hne
      cases hxy with
      | solve hv => exact k.settle (ih fun _ => nofun) hv
      | round hb hv =>
        obtain rfl := k.stop hb
        exact k.turn hp (ih fun _ => nofun) hv
      | finish | lose => exact absurd rfl (hne _)
  exact hall h fun _ => nofun

/-- A dependent run with an answer ends at a problem that the stop policy accepts. -/
theorem runDependent_carries [Backend K] (k : Carries p rule kept)
    (hp : p.rounding = .wholePoint rule) {out : Outcome K} (h : Returns (runDependent p) s out t)
    (ho : out.status = .optimal) (hs : kept s.problem) :
    ∃ u v, kept u.problem ∧ Returns p.stop u true u ∧ Returns p.setSolution u () v ∧ v.Agree t :=
  returns_start (fun u => kept u.problem) (fun hu ha => ha.1 ▸ hu) k.stop (k.solve hs)
    (fun hu hv => iterateDependent_carries k hp hv hu) h ho

end Engine

end LPRounding
