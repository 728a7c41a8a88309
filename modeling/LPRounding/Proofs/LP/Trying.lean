import LPRounding.Proofs.LP.Points
import LPRounding.Run.Engine
import LPRounding.Random.Dice

/-!
A solver that is sound by construction: it tries given points in turn and answers with the first
one that the system admits.
-/

namespace LPRounding

variable {K : Type}

section Points

variable [Scalar K]

instance (b : Option K × Option K) (x : K) : Decidable (Within b x) :=
  decidable_of_iff ((b.1.all fun l => l ≤ x) ∧ b.2.all fun u => x ≤ u) (by
    obtain ⟨l, u⟩ := b
    cases l <;> cases u <;> simp [Within])

def Within.pairs (bs : List (Option K × Option K)) (xs : List K) : Bool :=
  (bs.zip xs).all fun e => Within e.1 e.2

theorem Within.pairs_iff {bs : List (Option K × Option K)} {xs : List K} :
    Within.pairs bs xs = true ↔
      ∀ (j : Nat) b x, bs[j]? = some b → xs[j]? = some x → Within b x := by
  simp only [Within.pairs, List.all_eq_true, decide_eq_true_eq]
  constructor
  · intro h j b x hb hx
    have hz : (bs.zip xs)[j]? = some (b, x) := by simp [List.getElem?_zip_eq_some, hb, hx]
    exact h (b, x) (List.mem_of_getElem? hz)
  · rintro h ⟨b, x⟩ he
    obtain ⟨j, hj⟩ := List.mem_iff_getElem?.mp he
    obtain ⟨hb, hx⟩ := List.getElem?_zip_eq_some.mp hj
    exact h j b x hb hx

instance [DecidableEq K] (s : System K) (x : List K) : Decidable (s.Feasible x) :=
  decidable_of_iff (x.length = s.bounds.length ∧ Within.pairs s.bounds x = true ∧
      (∀ c ∈ s.atMost, weigh c.coefs x ≤ c.side) ∧ ∀ c ∈ s.equal, weigh c.coefs x = c.side)
    ⟨fun h => ⟨h.1, Within.pairs_iff.mp h.2.1, h.2.2.1, h.2.2.2⟩,
      fun h => ⟨h.length, Within.pairs_iff.mpr h.bounds, h.atMost, h.equal⟩⟩

/-- Answers with the first of the points that the system admits. -/
def Solver.trying [DecidableEq K] (points : List (List K)) : Solver K := fun s =>
  match points.find? fun x => s.Feasible x with
  | some x => .optimal x (s.objective x)
  | none => .infeasible

theorem Solver.trying_sound [DecidableEq K] (points : List (List K)) :
    (Solver.trying points).Sound := by
  intro s x c h
  unfold Solver.trying at h
  split at h
  · next hf =>
    obtain ⟨rfl, -⟩ := Verdict.optimal.inj h
    simpa using List.find?_some hf
  · cases h

/-- A backend whose runs can be computed. -/
@[reducible] def Backend.trying [DecidableEq K] (points : List (List K)) (flow : FlowFinder Site K)
    (passes : Nat) : Backend K :=
  { solver := Solver.trying points, flow, passes }

@[reducible] def Dice.zero : Dice Unit K where
  below _ s := (0, s)
  unit s := (0, s)
  weighted _ s := .ok (0, s)

@[reducible] def Dice.listed : Dice (List Nat) K where
  below _ s := (0, s)
  unit s := (0, s)
  weighted _ s := .ok (s.headD 0, s.tail)

end Points

theorem exists_ok {ε α : Type} (x : Except ε α) (test : α → Bool)
    (h : x.toOption.any test = true) : ∃ a, x = .ok a ∧ test a = true := by
  cases x with
  | ok a => exact ⟨a, rfl, h⟩
  | error e => cases h

/-- Whether a run of the action ends with a value that passes the test. -/
def yields {ε σ α : Type} (act : EStateM ε σ α) (s : σ) (test : α → Bool) : Bool :=
  match act s with
  | .ok a _ => test a
  | .error _ _ => false

theorem exists_returns {ε σ α : Type} {act : EStateM ε σ α} {s : σ} {test : α → Bool}
    (h : yields act s test = true) : ∃ a t, Returns act s a t ∧ test a = true := by
  unfold yields at h
  split at h
  · next a t heq => exact ⟨a, t, heq, h⟩
  · cases h

def solves {P : Type} [Roundable P K] [Backend K] (p : Policies P K) (problem : P) : Bool :=
  yields (Engine.solveProblem p) { problem } fun out => out.status = .optimal

theorem exists_answer {P : Type} [Roundable P K] [Backend K] {p : Policies P K} {problem : P}
    (h : solves p problem = true) :
    ∃ out t, Returns (Engine.solveProblem p) { problem } out t ∧ out.status = .optimal := by
  obtain ⟨out, t, hr, ho⟩ := exists_returns h
  exact ⟨out, t, hr, by simpa using ho⟩

end LPRounding
