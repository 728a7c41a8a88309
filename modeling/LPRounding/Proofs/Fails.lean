import LPRounding.Proofs.Returns

/-!
Failing runs of actions. A failure is traced back to the step that failed, after steps that
succeeded.
-/

namespace LPRounding

/-- The action fails from `s` with the fault `e` and leaves the state `t`. -/
def Fails {ε σ α : Type} (act : EStateM ε σ α) (s : σ) (e : ε) (t : σ) : Prop :=
  act s = .error e t

variable {ε σ α β : Type} {s t : σ} {e : ε}

theorem Returns.not_fails {act : EStateM ε σ α} {a : α} {u : σ} (h : Returns act s a t) :
    ¬ Fails act s e u := by
  intro hf
  cases h.symm.trans hf

theorem returns_or_fails (act : EStateM ε σ α) (s : σ) :
    (∃ a t, Returns act s a t) ∨ ∃ e t, Fails act s e t := by
  unfold Returns Fails
  cases act s <;> simp

def faults (act : EStateM ε σ α) (s : σ) (test : ε → Bool) : Bool :=
  match act s with
  | .ok _ _ => false
  | .error e _ => test e

theorem exists_fails {act : EStateM ε σ α} {test : ε → Bool} (h : faults act s test = true) :
    ∃ e t, Fails act s e t ∧ test e = true := by
  unfold faults at h
  split at h
  · cases h
  · next e t heq => exact ⟨e, t, heq, h⟩

@[simp] theorem fails_pure {a : α} : Fails (pure a : EStateM ε σ α) s e t ↔ False := by
  simp [Fails, pure, EStateM.pure]

@[simp] theorem fails_bind {act : EStateM ε σ α} {next : α → EStateM ε σ β} :
    Fails (act >>= next) s e t ↔
      Fails act s e t ∨ ∃ a u, Returns act s a u ∧ Fails (next a) u e t := by
  unfold Fails Returns
  simp only [bind, EStateM.bind]
  cases act s <;> simp

@[simp] theorem fails_map {act : EStateM ε σ α} {f : α → β} :
    Fails (f <$> act) s e t ↔ Fails act s e t := by
  unfold Fails
  simp only [Functor.map, EStateM.map]
  cases act s <;> simp

@[simp] theorem fails_throw {e' : ε} :
    Fails (throw e' : EStateM ε σ α) s e t ↔ e' = e ∧ s = t := by
  simp [Fails, throw, throwThe, MonadExceptOf.throw, EStateM.throw]

@[simp] theorem fails_get : Fails (get : EStateM ε σ σ) s e t ↔ False := by
  simp [Fails, get, getThe, MonadStateOf.get, EStateM.get]

@[simp] theorem fails_modify {f : σ → σ} :
    Fails (modify f : EStateM ε σ PUnit) s e t ↔ False := by
  simp [Fails, modify, modifyGet, MonadStateOf.modifyGet, EStateM.modifyGet]

@[simp] theorem fails_lift {x : Except ε α} :
    Fails (liftM x : EStateM ε σ α) s e t ↔ x = .error e ∧ s = t := by
  cases x <;> simp [Fails, liftM, monadLift, MonadLift.monadLift]

namespace Action

variable {P K : Type} {s t : Run P K} {e : Fault K}

@[simp] theorem fails_note {event : Event K} : Fails (note event) s e t ↔ False := by
  simp [note]

@[simp] theorem fails_model : Fails model s e t ↔ False := by
  simp [model]

@[simp] theorem fails_onModel {edit : Edit K α} :
    Fails (onModel edit) s e t ↔ ∃ m, Fails edit s.lp e m ∧ { s with lp := m } = t := by
  unfold Fails onModel
  cases edit s.lp <;> simp

end Action

end LPRounding
