import Mathlib
import LPRounding.Run.State

/-!
Successful runs of actions. An action is taken apart into what each of its steps returned and the
state it left; a step that fails returns nothing.
-/

namespace LPRounding

/-- The action succeeds from `s` with the value `a` and leaves the state `t`. -/
def Returns {ε σ α : Type} (act : EStateM ε σ α) (s : σ) (a : α) (t : σ) : Prop :=
  act s = .ok a t

variable {ε σ α β : Type} {s t : σ}

theorem Returns.unique {act : EStateM ε σ α} {u : σ} {a b : α} (h : Returns act s a t)
    (h' : Returns act s b u) : a = b ∧ t = u :=
  EStateM.Result.ok.inj (h.symm.trans h')

theorem Returns.bind_apply {act : EStateM ε σ α} {a : α} (h : Returns act s a t)
    (next : α → EStateM ε σ β) : (act >>= next) s = next a t := by
  show EStateM.bind act next s = next a t
  unfold EStateM.bind
  rw [h]

@[simp] theorem returns_pure {a b : α} :
    Returns (pure a : EStateM ε σ α) s b t ↔ a = b ∧ s = t := by
  simp [Returns, pure, EStateM.pure]

@[simp] theorem returns_bind {act : EStateM ε σ α} {next : α → EStateM ε σ β} {b : β} :
    Returns (act >>= next) s b t ↔ ∃ a u, Returns act s a u ∧ Returns (next a) u b t := by
  unfold Returns
  simp only [bind, EStateM.bind]
  cases act s <;> simp

@[simp] theorem returns_map {act : EStateM ε σ α} {f : α → β} {b : β} :
    Returns (f <$> act) s b t ↔ ∃ a, Returns act s a t ∧ f a = b := by
  unfold Returns
  simp only [Functor.map, EStateM.map]
  cases act s <;> simp [and_comm]

@[simp] theorem returns_throw {e : ε} {a : α} :
    Returns (throw e : EStateM ε σ α) s a t ↔ False := by
  simp [Returns, throw, throwThe, MonadExceptOf.throw, EStateM.throw]

@[simp] theorem returns_get {a : σ} : Returns (get : EStateM ε σ σ) s a t ↔ s = a ∧ s = t := by
  simp [Returns, get, getThe, MonadStateOf.get, EStateM.get]

@[simp] theorem returns_set {u : σ} {a : PUnit} :
    Returns (set u : EStateM ε σ PUnit) s a t ↔ u = t := by
  simp [Returns, set, MonadStateOf.set, EStateM.set]

@[simp] theorem returns_modify {f : σ → σ} {a : PUnit} :
    Returns (modify f : EStateM ε σ PUnit) s a t ↔ f s = t := by
  simp [Returns, modify, modifyGet, MonadStateOf.modifyGet, EStateM.modifyGet]

@[simp] theorem returns_lift {x : Except ε α} {a : α} :
    Returns (liftM x : EStateM ε σ α) s a t ↔ x = .ok a ∧ s = t := by
  cases x <;> simp [Returns, liftM, monadLift, MonadLift.monadLift]

theorem returns_forM_cons {x : α} {xs : List α} {f : α → EStateM ε σ PUnit} {u : PUnit} :
    Returns ((x :: xs).forM f) s u t ↔ ∃ v, Returns (f x) s ⟨⟩ v ∧ Returns (xs.forM f) v u t := by
  constructor
  · intro h
    obtain ⟨_, v, hx, h⟩ := returns_bind.mp h
    exact ⟨v, hx, h⟩
  · rintro ⟨v, hx, h⟩
    exact returns_bind.mpr ⟨_, v, hx, h⟩

theorem ok_bind_iff {x : Except ε α} {f : α → Except ε β} {b : β} :
    (x >>= f) = .ok b ↔ ∃ a, x = .ok a ∧ f a = .ok b := by
  cases x <;> simp [bind, Except.bind]

theorem mapM_ok_iff {f : α → Except ε β} {xs : List α} {ys : List β} :
    xs.mapM f = .ok ys ↔ List.Forall₂ (fun x y => f x = .ok y) xs ys := by
  induction xs generalizing ys with
  | nil => cases ys <;> simp [pure, Except.pure]
  | cons x xs ih =>
    simp only [List.mapM_cons, ok_bind_iff]
    constructor
    · rintro ⟨y, hy, zs, hz, h⟩
      obtain rfl := Except.ok.inj h
      exact .cons hy (ih.mp hz)
    · rintro (_ | ⟨hy, hz⟩)
      exact ⟨_, hy, _, ih.mpr hz, rfl⟩

theorem exists_of_mapM {f : α → Except ε β} {xs : List α} {ys : List β}
    (h : xs.mapM f = .ok ys) {y : β} (hy : y ∈ ys) : ∃ x ∈ xs, f x = .ok y := by
  have hp := mapM_ok_iff.mp h
  clear h
  induction hp with
  | nil => cases hy
  | @cons x z _ _ hx _ ih =>
    rcases List.mem_cons.mp hy with rfl | hy
    · exact ⟨x, List.mem_cons_self, hx⟩
    · obtain ⟨w, hw, hf⟩ := ih hy
      exact ⟨w, List.mem_cons_of_mem _ hw, hf⟩

theorem exists_mem_of_mapM {f : α → Except ε β} {xs : List α} {ys : List β}
    (h : xs.mapM f = .ok ys) {x : α} (hx : x ∈ xs) : ∃ y ∈ ys, f x = .ok y := by
  have hp := mapM_ok_iff.mp h
  clear h
  induction hp with
  | nil => cases hx
  | @cons z y _ _ hz _ ih =>
    rcases List.mem_cons.mp hx with rfl | hx
    · exact ⟨y, List.mem_cons_self, hz⟩
    · obtain ⟨w, hw, hf⟩ := ih hx
      exact ⟨w, List.mem_cons_of_mem _ hw, hf⟩

theorem exists_mapM (f : α → Except ε β) (xs : List α)
    (h : ∀ x ∈ xs, ∃ y, f x = .ok y) : ∃ ys, xs.mapM f = .ok ys := by
  induction xs with
  | nil => exact ⟨[], rfl⟩
  | cons x xs ih =>
    obtain ⟨y, hy⟩ := h x List.mem_cons_self
    obtain ⟨ys, hys⟩ := ih fun z hz => h z (List.mem_cons_of_mem _ hz)
    exact ⟨y :: ys, mapM_ok_iff.mpr (.cons hy (mapM_ok_iff.mp hys))⟩

theorem eq_map_of_mapM {f : α → Except ε β} {g : α → β} {xs : List α} {ys : List β}
    (hg : ∀ x y, f x = .ok y → y = g x) (h : xs.mapM f = .ok ys) : ys = xs.map g := by
  have hp := mapM_ok_iff.mp h
  clear h
  induction hp with
  | nil => rfl
  | cons hy _ ih => rw [List.map_cons, ← hg _ _ hy, ← ih]

namespace Action

variable {P K : Type} {s t : Run P K}

@[simp] theorem returns_note {e : Event K} {u : Unit} :
    Returns (note e) s u t ↔ { s with trace := s.trace ++ [e] } = t := by
  simp [note]

@[simp] theorem returns_problem {p : P} : Returns problem s p t ↔ s.problem = p ∧ s = t := by
  simp [problem, and_comm]

@[simp] theorem returns_model {m : Model K} : Returns model s m t ↔ s.lp = m ∧ s = t := by
  simp [model, and_comm]

@[simp] theorem returns_setModel {m : Model K} {u : Unit} :
    Returns (setModel m) s u t ↔ { s with lp := m } = t := by
  simp [setModel]

@[simp] theorem returns_onModel {edit : Edit K α} {a : α} :
    Returns (onModel edit) s a t ↔ ∃ m, Returns edit s.lp a m ∧ { s with lp := m } = t := by
  unfold Returns onModel
  cases edit s.lp <;> simp

@[simp] theorem returns_onProblem {change : EStateM (Fault K) P α} {a : α} :
    Returns (onProblem change) s a t ↔
      ∃ p, Returns change s.problem a p ∧ { s with problem := p } = t := by
  unfold Returns onProblem
  cases change s.problem <;> simp

end Action

end LPRounding
