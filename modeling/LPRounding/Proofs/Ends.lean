import LPRounding.Proofs.Returns

/-!
Complete runs of actions, faults included. What is proved of every end of an action holds whether it
succeeds or not; an action whose faults are all ruled out returns.
-/

namespace LPRounding

/-- From `s` the action either returns a value and a state that are `good`, or fails with a `bad`
fault. -/
def Ends {ε σ α : Type} (act : EStateM ε σ α) (s : σ) (good : α → σ → Prop)
    (bad : ε → Prop) : Prop :=
  match act s with
  | .ok a t => good a t
  | .error e _ => bad e

variable {ε σ α β : Type} {s : σ} {good more : α → σ → Prop} {bad worse : ε → Prop}

theorem ends_iff {act : EStateM ε σ α} : Ends act s good bad ↔
    (∀ a t, Returns act s a t → good a t) ∧ ∀ e t, act s = .error e t → bad e := by
  unfold Ends Returns
  cases act s <;> simp

theorem Ends.mono {act : EStateM ε σ α} (h : Ends act s good bad)
    (hgood : ∀ a t, Returns act s a t → good a t → more a t) (hbad : ∀ e, bad e → worse e) :
    Ends act s more worse := by
  obtain ⟨h₁, h₂⟩ := ends_iff.mp h
  exact ends_iff.mpr ⟨fun a t ha => hgood a t ha (h₁ a t ha), fun e t he => hbad e (h₂ e t he)⟩

theorem Ends.exists_returns {act : EStateM ε σ α} (h : Ends act s good fun _ => False) :
    ∃ a t, Returns act s a t ∧ good a t := by
  unfold Ends at h
  split at h
  · next a t heq => exact ⟨a, t, heq, h⟩
  · exact h.elim

theorem Returns.ends {act : EStateM ε σ α} {a : α} {t : σ} (h : Returns act s a t) :
    Ends act s good bad ↔ good a t := by
  unfold Returns at h
  simp [Ends, h]

@[simp] theorem ends_pure {a : α} : Ends (pure a : EStateM ε σ α) s good bad ↔ good a s := Iff.rfl

@[simp] theorem ends_bind {act : EStateM ε σ β} {next : β → EStateM ε σ α} :
    Ends (act >>= next) s good bad ↔ Ends act s (fun b t => Ends (next b) t good bad) bad := by
  unfold Ends
  simp only [bind, EStateM.bind]
  cases act s <;> simp

@[simp] theorem ends_map {act : EStateM ε σ β} {f : β → α} :
    Ends (f <$> act) s good bad ↔ Ends act s (fun b t => good (f b) t) bad := by
  unfold Ends
  simp only [Functor.map, EStateM.map]
  cases act s <;> simp

@[simp] theorem ends_throw {e : ε} : Ends (throw e : EStateM ε σ α) s good bad ↔ bad e := Iff.rfl

@[simp] theorem ends_get {good : σ → σ → Prop} :
    Ends (get : EStateM ε σ σ) s good bad ↔ good s s := Iff.rfl

@[simp] theorem ends_set {t : σ} {good : PUnit → σ → Prop} :
    Ends (set t : EStateM ε σ PUnit) s good bad ↔ good ⟨⟩ t := Iff.rfl

@[simp] theorem ends_modify {f : σ → σ} {good : PUnit → σ → Prop} :
    Ends (modify f : EStateM ε σ PUnit) s good bad ↔ good ⟨⟩ (f s) := Iff.rfl

theorem ends_forM_cons {x : β} {xs : List β} {f : β → EStateM ε σ PUnit}
    {good : PUnit → σ → Prop} : Ends ((x :: xs).forM f) s good bad ↔
      Ends (f x) s (fun _ t => Ends (xs.forM f) t good bad) bad := ends_bind

theorem ends_lift {x : Except ε α} : Ends (liftM x : EStateM ε σ α) s good bad ↔
    (∀ a, x = .ok a → good a s) ∧ ∀ e, x = .error e → bad e := by
  cases x <;> simp [Ends, liftM, monadLift, MonadLift.monadLift]

theorem ends_lift_ok {x : Except ε α} {a : α} (h : x = .ok a) :
    Ends (liftM x : EStateM ε σ α) s good bad ↔ good a s := by
  simp [ends_lift, h]

namespace Action

variable {P K : Type} {s : Run P K} {good : α → Run P K → Prop} {bad : Fault K → Prop}

@[simp] theorem ends_note {e : Event K} {good : Unit → Run P K → Prop} :
    Ends (note e) s good bad ↔ good () { s with trace := s.trace ++ [e] } := Iff.rfl

@[simp] theorem ends_problem {good : P → Run P K → Prop} :
    Ends problem s good bad ↔ good s.problem s := Iff.rfl

@[simp] theorem ends_model {good : Model K → Run P K → Prop} :
    Ends model s good bad ↔ good s.lp s := Iff.rfl

@[simp] theorem ends_setModel {m : Model K} {good : Unit → Run P K → Prop} :
    Ends (setModel m) s good bad ↔ good () { s with lp := m } := Iff.rfl

@[simp] theorem ends_onModel {edit : Edit K α} : Ends (onModel edit) s good bad ↔
    Ends edit s.lp (fun a m => good a { s with lp := m }) bad := by
  unfold Ends onModel
  cases edit s.lp <;> simp

@[simp] theorem ends_onProblem {change : EStateM (Fault K) P α} :
    Ends (onProblem change) s good bad ↔
      Ends change s.problem (fun a p => good a { s with problem := p }) bad := by
  unfold Ends onProblem
  cases change s.problem <;> simp

end Action

end LPRounding
