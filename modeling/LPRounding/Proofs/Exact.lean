import Mathlib
import LPRounding.Tolerance

/-!
Exact arithmetic: every ordered field computes with the definitions of the program. The order in
which numbers are added does not matter there.
-/

namespace LPRounding

variable {K : Type} [Field K] [LinearOrder K] [FloorRing K]

/-- No value of a field is infinite, so nothing is ever read off `top`. -/
instance Scalar.ofField : Scalar K where
  ofInt n := (n : K)
  half := 1 / 2
  isInfinite _ := false
  top := 0
  isFinite _ := true
  whole x := some (if 0 ≤ x then ⌊x⌋ else ⌈x⌉)
  ltDecidable := inferInstance
  leDecidable := inferInstance

namespace Scalar

@[simp] theorem sum_eq (xs : List K) : Scalar.sum xs = xs.sum := by
  rw [Scalar.sum, List.sum_eq_foldl]

@[simp] theorem larger_eq (a b : K) : Scalar.larger a b = max a b := by
  unfold Scalar.larger
  split
  · next h => rw [max_eq_right h.le]
  · next h => rw [max_eq_left (not_lt.mp h)]

@[simp] theorem ofInt_eq (n : ℤ) : (Scalar.ofInt n : K) = n := rfl

@[simp] theorem half_eq : (Scalar.half : K) = 1 / 2 := rfl

@[simp] theorem isInfinite_eq (a : K) : Scalar.isInfinite a = false := rfl

theorem le_foldl_larger (xs : List K) (a : K) : a ≤ xs.foldl Scalar.larger a := by
  induction xs generalizing a with
  | nil => exact le_rfl
  | cons x xs ih => exact (le_max_left a x).trans ((larger_eq a x).symm ▸ ih _)

theorem mem_le_foldl_larger {xs : List K} {x : K} (h : x ∈ xs) (a : K) :
    x ≤ xs.foldl Scalar.larger a := by
  induction xs generalizing a with
  | nil => cases h
  | cons y ys ih =>
    rcases List.mem_cons.mp h with rfl | h
    · refine le_trans ?_ (le_foldl_larger ys _)
      rw [larger_eq]
      exact le_max_right a x
    · exact ih h _

theorem foldl_larger_mem (xs : List K) (a : K) : xs.foldl Scalar.larger a ∈ a :: xs := by
  induction xs generalizing a with
  | nil => exact List.mem_cons_self
  | cons x xs ih =>
    rw [List.foldl_cons]
    rcases List.mem_cons.mp (ih (Scalar.larger a x)) with h | h
    · rw [h, larger_eq]
      rcases max_choice a x with hm | hm <;> simp [hm]
    · exact List.mem_cons_of_mem _ (List.mem_cons_of_mem _ h)

theorem le_largest {xs : List K} {x : K} (h : x ∈ xs) (a : K) : x ≤ Scalar.largest a xs := by
  cases xs with
  | nil => cases h
  | cons y ys =>
    rcases List.mem_cons.mp h with rfl | h
    · exact le_foldl_larger ys x
    · exact mem_le_foldl_larger h y

theorem largest_mem (a : K) (xs : List K) : Scalar.largest a xs ∈ a :: xs := by
  cases xs with
  | nil => exact List.mem_cons_self
  | cons y ys => exact List.mem_cons_of_mem _ (foldl_larger_mem ys y)

end Scalar

namespace Tolerance

variable (t : Tolerance K) (a b : K)

theorem ofEpsilon_eq_ok {ε : K} {t : Tolerance K} : ofEpsilon ε = .ok t ↔ 0 ≤ ε ∧ t = ⟨ε⟩ := by
  unfold ofEpsilon
  split
  · next h => simp [h]
  · next h => simp [not_lt.mp h, eq_comm]

@[simp] theorem above_iff : t.above a b = true ↔ b + t.epsilon < a := by simp [above]

@[simp] theorem atLeast_iff : t.atLeast a b = true ↔ b - t.epsilon ≤ a := by simp [atLeast]

end Tolerance

variable [IsStrictOrderedRing K]

@[simp] theorem Scalar.abs_eq (a : K) : Scalar.abs a = |a| := by
  unfold Scalar.abs
  split
  · next h => rw [abs_of_neg h]
  · next h => rw [abs_of_nonneg (not_lt.mp h)]

@[simp] theorem Tolerance.equal_iff (t : Tolerance K) (a b : K) :
    t.equal a b = true ↔ |a - b| < t.epsilon := by
  simp [equal]

end LPRounding
