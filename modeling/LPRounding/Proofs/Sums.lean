import LPRounding.Proofs.Exact
import LPRounding.Summation

/-!
Sums over lists as sums over the places of their entries, and sums in a balanced order as sums.
Parts of a list without repeats are known by their members.
-/

namespace LPRounding

variable {α M : Type} [AddCommMonoid M]

theorem zipIdx_eq_map_finRange (xs : List α) :
    xs.zipIdx = (List.finRange xs.length).map fun k => (xs.get k, k.val) := by
  apply List.ext_getElem
  · simp
  · intro i h _
    simp

theorem eq_filter_of_sublist [DecidableEq α] {part xs : List α} (h : part.Sublist xs)
    (hn : xs.Nodup) : part = xs.filter (· ∈ part) := by
  induction h with
  | slnil => rfl
  | @cons part xs x h ih =>
    obtain ⟨hx, hn⟩ := List.nodup_cons.mp hn
    have hout : x ∉ part := fun hmem => hx (h.subset hmem)
    rw [List.filter_cons_of_neg (by simpa using hout)]
    exact ih hn
  | @cons_cons part xs x h ih =>
    obtain ⟨hx, hn⟩ := List.nodup_cons.mp hn
    have hsame : xs.filter (· ∈ x :: part) = xs.filter (· ∈ part) := by
      refine List.filter_congr fun y hy => decide_eq_decide.mpr ?_
      have hne : y ≠ x := fun heq => hx (heq ▸ hy)
      simp [hne]
    rw [List.filter_cons_of_pos (by simp), hsame, ← ih hn]

theorem sum_map_filter (xs : List α) (q : α → Bool) (f : α → M) :
    ((xs.filter q).map f).sum = (xs.map fun x => if q x then f x else 0).sum := by
  induction xs with
  | nil => rfl
  | cons x xs ih => by_cases h : q x <;> simp [h, ih]

theorem sum_filterMap_ite (xs : List α) (q : α → Prop) [DecidablePred q] (f : α → M) :
    (xs.filterMap fun x => if q x then some (f x) else none).sum =
      (xs.map fun x => if q x then f x else 0).sum := by
  induction xs with
  | nil => rfl
  | cons x xs ih => by_cases h : q x <;> simp [h, ih]

theorem cast_countP {R : Type} [AddCommMonoidWithOne R] (xs : List α) (q : α → Bool) :
    (xs.countP q : R) = (xs.map fun x => if q x then 1 else 0).sum := by
  induction xs with
  | nil => simp
  | cons x xs ih =>
    rw [List.map_cons, List.sum_cons, ← ih, List.countP_cons]
    by_cases h : q x <;> simp [h, add_comm]

theorem countP_add_countP (xs : List α) (q r : α → Bool) :
    xs.countP q + xs.countP r =
      xs.countP (fun x => q x || r x) + xs.countP fun x => q x && r x := by
  induction xs with
  | nil => rfl
  | cons x xs ih =>
    simp only [List.countP_cons]
    cases q x <;> cases r x <;> simp <;> omega

theorem sum_map_sum {ι : Type} (xs : List α) (s : Finset ι) (f : α → ι → M) :
    (xs.map fun x => ∑ i ∈ s, f x i).sum = ∑ i ∈ s, (xs.map fun x => f x i).sum := by
  induction xs with
  | nil => simp
  | cons x xs ih => simp [ih, Finset.sum_add_distrib]

theorem sum_finRange_filter {n : Nat} (q : Fin n → Bool) (f : Fin n → M) :
    (((List.finRange n).filter q).map f).sum = ∑ k with q k, f k := by
  rw [sum_map_filter, Finset.sum_filter, Fin.sum_univ_def]

theorem length_finRange_filter {n : Nat} (q : Fin n → Bool) :
    ((List.finRange n).filter q).length = (Finset.univ.filter fun k => q k).card := by
  rw [Finset.card_eq_sum_ones, ← sum_finRange_filter]
  simp

namespace Scalar

variable {K : Type} [Field K] [LinearOrder K] [FloorRing K]

theorem inLanes_eq (a b c d e f g h : K) (xs : List K) :
    inLanes a b c d e f g h xs = a + b + c + d + e + f + g + h + xs.sum := by
  fun_induction inLanes a b c d e f g h xs with
  | case1 a b c d e f g h p q r s t u v w rest ih =>
    rw [ih]
    simp only [List.sum_cons]
    ring
  | case2 a b c d e f g h rest _ =>
    rw [List.foldl_eq_apply_foldr, ← List.sum]
    ring

theorem blockSum_eq (xs : List K) : blockSum xs = xs.sum := by
  unfold blockSum
  split
  · rw [inLanes_eq]
    simp only [List.sum_cons]
    ring
  · exact sum_eq _

theorem balancedSum_eq (xs : List K) : balancedSum xs = xs.sum := by
  fun_induction balancedSum xs with
  | case1 xs _ half ihl ihr => rw [ihl, ihr, ← List.sum_append, List.take_append_drop]
  | case2 xs _ => exact blockSum_eq xs

end Scalar

end LPRounding
