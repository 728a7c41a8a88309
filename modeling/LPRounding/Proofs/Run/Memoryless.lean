import LPRounding.Proofs.Run.Invariant
import LPRounding.Separation.Oracle

/-!
Actions without a memory of their own. What such an action comes to is decided by the problem and
the model at hand; the events so far and the counts of a run are only written, never read.
-/

namespace LPRounding

set_option linter.unusedSectionVars false

variable {P K α β : Type} [Scalar K]

theorem Run.Agree.symm {s t : Run P K} (h : s.Agree t) : t.Agree s := ⟨h.1.symm, h.2.symm⟩

/-- The same value at the same problem and model, or the same fault at the same problem. -/
inductive Alike : EStateM.Result (Fault K) (Run P K) α → EStateM.Result (Fault K) (Run P K) α → Prop
    where
  | ok {a : α} {s t : Run P K} : s.Agree t → Alike (.ok a s) (.ok a t)
  | error {e : Fault K} {s t : Run P K} :
    t.problem = s.problem → Alike (.error e s) (.error e t)

namespace Action

/-- The actions come to the same wherever they find the same problem and model. -/
def Same (act act' : Action P K α) : Prop := ∀ ⦃s t⦄, s.Agree t → Alike (act s) (act' t)

def Memoryless (act : Action P K α) : Prop := act.Same act

/-- The action succeeds and leaves the problem and the model. -/
def Silent (act : Action P K α) : Prop := ∀ s, ∃ a t, Returns act s a t ∧ s.Agree t

end Action

theorem Alike.bind {act act' : Action P K α} {next next' : α → Action P K β} {s t : Run P K}
    (h : Alike (act s) (act' t)) (hn : ∀ a, (next a).Same (next' a)) :
    Alike ((act >>= next) s) ((act' >>= next') t) := by
  show Alike (EStateM.bind act next s) (EStateM.bind act' next' t)
  unfold EStateM.bind
  generalize act s = x, act' t = y at h
  cases h with
  | ok h => exact hn _ h
  | error h => exact .error h

theorem Alike.returns {act act' : Action P K α} {a : α} {s t u : Run P K}
    (h : Alike (act s) (act' t)) (hu : Returns act s a u) : ∃ v, Returns act' t a v ∧ u.Agree v := by
  rw [hu] at h
  generalize hv : act' t = x at h
  cases h with
  | ok h => exact ⟨_, hv, h⟩

namespace Action

variable {act act' : Action P K α} {next next' : α → Action P K β}

theorem Same.bind (h : act.Same act') (hn : ∀ a, (next a).Same (next' a)) :
    Same (act >>= next) (act' >>= next') :=
  fun _ _ hst => (h hst).bind hn

theorem Silent.left {act' : Action P K β} (h : act.Silent) (hn : ∀ a, (next a).Same act') :
    Same (act >>= next) act' := by
  intro s t hst
  obtain ⟨a, u, hu, hsu⟩ := h s
  rw [hu.bind_apply]
  exact hn a (hsu.symm.trans hst)

theorem Silent.right {act' : Action P K β} (h : act.Silent) (hn : ∀ a, act'.Same (next a)) :
    Same act' (act >>= next) := by
  intro s t hst
  obtain ⟨a, u, hu, htu⟩ := h t
  rw [hu.bind_apply]
  exact hn a (hst.trans htu)

theorem Silent.both {act' : Action P K β} {γ : Type} {next : α → Action P K γ}
    {next' : β → Action P K γ} (h : act.Silent) (h' : act'.Silent)
    (hn : ∀ a b, (next a).Same (next' b)) : Same (act >>= next) (act' >>= next') :=
  h.left fun a => h'.right fun b => hn a b

theorem memoryless_pure (a : α) : Memoryless (pure a : Action P K α) := fun _ _ h => .ok h

theorem memoryless_throw (e : Fault K) : Memoryless (throw e : Action P K α) :=
  fun _ _ h => .error h.1

theorem memoryless_lift (x : Except (Fault K) α) : Memoryless (liftM x : Action P K α) := by
  intro s t h
  cases x with
  | ok a => exact .ok h
  | error e => exact .error h.1

theorem memoryless_modify {f : Run P K → Run P K} (hf : ∀ ⦃s t⦄, s.Agree t → (f s).Agree (f t)) :
    Memoryless (modify f : Action P K PUnit) :=
  fun _ _ h => .ok (hf h)

theorem memoryless_model : Memoryless (model : Action P K (Model K)) := by
  intro s t h
  show Alike (.ok s.lp s) (.ok t.lp t)
  rw [h.2]
  exact .ok h

theorem memoryless_problem : Memoryless (problem : Action P K P) := by
  intro s t h
  show Alike (.ok s.problem s) (.ok t.problem t)
  rw [h.1]
  exact .ok h

theorem memoryless_onModel (edit : Edit K α) : Memoryless (onModel edit : Action P K α) := by
  intro s t h
  unfold onModel
  rw [h.2]
  cases edit s.lp with
  | ok a m => exact .ok ⟨h.1, rfl⟩
  | error e m => exact .error h.1

theorem memoryless_onProblem (change : EStateM (Fault K) P α) :
    Memoryless (onProblem change : Action P K α) := by
  intro s t h
  unfold onProblem
  rw [h.1]
  cases change s.problem with
  | ok a q => exact .ok ⟨rfl, h.2⟩
  | error e q => exact .error rfl

theorem silent_note (e : Event K) : Silent (note e : Action P K Unit) :=
  fun _ => ⟨(), _, returns_note.mpr rfl, rfl, rfl⟩

theorem same_note (e e' : Event K) : Same (note e : Action P K Unit) (note e') :=
  fun _ _ h => .ok ⟨h.1, h.2⟩

theorem silent_get : Silent (get : Action P K (Run P K)) :=
  fun s => ⟨s, s, returns_get.mpr ⟨rfl, rfl⟩, rfl, rfl⟩

theorem silent_model : Silent (model : Action P K (Model K)) :=
  fun s => ⟨s.lp, s, returns_model.mpr ⟨rfl, rfl⟩, rfl, rfl⟩

variable [Backend K]

theorem memoryless_solveModel : Memoryless (solveModel : Action P K Status) := by
  refine (memoryless_onModel _).bind fun st => memoryless_model.bind fun m => ?_
  split
  · split
    · exact (silent_note _).both (silent_note _) fun _ _ => memoryless_pure _
    · exact (silent_note _).both (silent_note _) fun _ _ => memoryless_pure _
  · exact memoryless_pure _

variable [Roundable P K]

theorem memoryless_generateRows (hfeasible : (Roundable.feasible : Action P K Bool).Memoryless)
    (hseparate : (Roundable.separate : Action P K Nat).Memoryless) (passes : Nat) (st : Status) :
    Memoryless (generateRows passes st : Action P K Status) := by
  have hstopped (st : Status) : Memoryless (do
      note (.generationStopped st); return st : Action P K Status) :=
    (silent_note _).both (silent_note _) fun _ _ => memoryless_pure _
  induction passes generalizing st with
  | zero =>
    cases st with
    | optimal => exact memoryless_throw _
    | infeasible | unbounded => exact hstopped _
  | succ passes ih =>
    cases st with
    | optimal =>
      refine hfeasible.bind fun b => ?_
      split
      · exact memoryless_pure _
      · exact hseparate.bind fun _ => memoryless_solveModel.bind fun st => ih st
    | infeasible | unbounded => exact hstopped _

theorem memoryless_solveRule (hfeasible : (Roundable.feasible : Action P K Bool).Memoryless)
    (hseparate : (Roundable.separate : Action P K Nat).Memoryless) (way : SolveRule) :
    Memoryless (way.apply : Action P K Status) := by
  cases way with
  | plain => exact memoryless_solveModel
  | generating =>
    exact memoryless_solveModel.bind fun st => memoryless_generateRows hfeasible hseparate _ st

end Action

namespace Oracle

open LPRounding.Action

variable {S C N : Type} [Dice S K] (h : Home P K S C N) (k : Checker P K C N)

theorem memoryless_feasible (tolerance : P → Tolerance K) :
    Memoryless (feasible h k tolerance) :=
  memoryless_model.bind fun _ => (memoryless_onProblem _).bind fun _ => memoryless_pure _

theorem memoryless_separate : Memoryless (separate h k) :=
  memoryless_problem.bind fun _ => (memoryless_onProblem _).bind fun _ =>
    (memoryless_onModel _).bind fun _ => (same_note _ _).bind fun _ => memoryless_pure _

end Oracle

end LPRounding
