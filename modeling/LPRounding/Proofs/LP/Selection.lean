import LPRounding.Proofs.LP.Prices
import LPRounding.Proofs.Sums

/-!
Points that stand for a choice of columns, and rows that count columns. The point of a sublist is one
at its members; what it costs is what these cost, and a row that counts the columns with a property
counts the members that have it.
-/

namespace LPRounding

set_option linter.unusedSectionVars false

variable {K α : Type} [Field K] [LinearOrder K] [IsStrictOrderedRing K] [FloorRing K]
  {xs F : List α} {y z : List K} {js : List Nat}

theorem weigh_ones (js : List Nat) (y : List K) :
    weigh (js.map fun j => (j, 1)) y = (js.map fun j => y.getD j 0).sum := by
  simp [weigh, Function.comp_def]

theorem getD_of_forall (good : K → Prop) (h0 : good 0) (hz : ∀ v ∈ z, good v) (j : Nat) :
    good (z.getD j 0) := by
  rw [List.getD_eq_getElem?_getD]
  cases hj : z[j]? with
  | none => exact h0
  | some v => exact hz v (List.mem_of_getElem? hj)

theorem getD_set (z : List K) (j i : Nat) (v : K) :
    (z.set j v).getD i 0 = if i = j ∧ j < z.length then v else z.getD i 0 := by
  rw [List.getD_eq_getElem?_getD, List.getD_eq_getElem?_getD, List.getElem?_set]
  by_cases hij : j = i
  · subst hij
    by_cases hj : j < z.length <;> simp [hj]
  · simp [hij, Ne.symm hij]

/-- What a row asks for is still there when one column goes to one: the column was not above it, or
the row does not ask for more. -/
theorem le_weigh_set {lo : K} {j : Nat} (hz : ∀ i, 0 ≤ z.getD i 0) (hj : z.getD j 0 ≤ 1 ∨ lo ≤ 1)
    (h : lo ≤ weigh (js.map fun i => (i, 1)) z) :
    lo ≤ weigh (js.map fun i => (i, 1)) (z.set j 1) := by
  rw [weigh_ones] at h ⊢
  have hset (i : Nat) : 0 ≤ (z.set j 1).getD i 0 := by
    rw [getD_set]
    split
    · exact zero_le_one
    · exact hz i
  by_cases hcount : j ∈ js ∧ j < z.length ∧ lo ≤ 1
  · obtain ⟨hmem, hlt, hlo⟩ := hcount
    calc lo ≤ (z.set j 1).getD j 0 := by rw [getD_set, if_pos ⟨rfl, hlt⟩]; exact hlo
      _ ≤ (js.map fun i => (z.set j 1).getD i 0).sum :=
          List.single_le_sum (by simpa using fun i _ => hset i) _
            (List.mem_map_of_mem (f := fun i => (z.set j 1).getD i 0) hmem)
  · refine h.trans (List.sum_le_sum fun i hi => ?_)
    rw [getD_set]
    split
    · next hij =>
      obtain ⟨rfl, hlt⟩ := hij
      exact hj.resolve_right fun hlo => hcount ⟨hi, hlt, hlo⟩
    · exact le_rfl

theorem set_getD_self (z : List K) (j : Nat) : z.set j (z.getD j 0) = z := by
  refine List.ext_getElem (by simp) fun i hi hi' => ?_
  by_cases hij : j = i
  · subst hij
    simp [hi']
  · simp [hij]

structure Selects (xs F : List α) (y : List K) : Prop where
  length : y.length = xs.length
  binary : ∀ v ∈ y, v = 0 ∨ v = 1
  sum : ∀ f : α → K, (List.zipWith (fun x v => f x * v) xs y).sum = (F.map f).sum

theorem exists_selects (h : F.Sublist xs) : ∃ y : List K, Selects xs F y := by
  induction h with
  | slnil => exact ⟨[], rfl, by simp, by simp⟩
  | cons x _ ih =>
    obtain ⟨y, hy⟩ := ih
    refine ⟨0 :: y, by simp [hy.length], ?_, fun f => by simp [hy.sum]⟩
    simpa using hy.binary
  | cons_cons x _ ih =>
    obtain ⟨y, hy⟩ := ih
    refine ⟨1 :: y, by simp [hy.length], ?_, fun f => by simp [hy.sum]⟩
    simpa using hy.binary

namespace Selects

theorem weigh_positions (h : Selects xs F y) (q : α → Bool) :
    weigh ((Model.positions q xs).map fun j => (j, 1)) y = F.countP q := by
  have hzip : (xs.zipIdx.map fun e => if q e.1 then y.getD e.2 0 else 0) =
      List.zipWith (fun x v => (if q x then 1 else 0) * v) xs y := by
    refine List.ext_getElem (by simp [h.length]) fun i hi hi' => ?_
    have hlt : i < y.length := by
      simp only [List.length_zipWith] at hi'
      omega
    simp [hlt]
  rw [weigh_ones, Model.positions, List.map_map, sum_map_filter xs.zipIdx (fun e => q e.1)]
  exact (congrArg List.sum hzip).trans ((h.sum fun x => if q x then 1 else 0).trans
    (cast_countP F q).symm)

theorem costOf (h : Selects xs F y) {m : Model K} {cost : α → K}
    (hm : m.columns.map Column.cost = xs.map cost) : m.costOf y = (F.map cost).sum := by
  have hzip : List.zipWith (fun c v => c.cost * v) m.columns y =
      List.zipWith (fun x v => cost x * v) xs y := by
    have := congrArg (fun cs => List.zipWith (· * ·) cs y) hm
    simpa only [List.zipWith_map_left] using this
  rw [Model.costOf, hzip, h.sum]

theorem admits (h : Selects xs F y) {m : Model K} (hm : m.columns.length = xs.length)
    (hcolumns : ∀ c ∈ m.columns, c.fixed = none ∧ c.bound.Admits 0 ∧ c.bound.Admits 1)
    (hrows : ∀ r ∈ m.rows, r.bound.Admits (weigh r.coefs y)) : m.Admits y := by
  refine ⟨h.length.trans hm.symm, fun j c v hc hv => ?_, fun r hr _ => hrows r hr⟩
  obtain ⟨hopen, hzero, hone⟩ := hcolumns c (List.mem_of_getElem? hc)
  rw [Column.Admits, hopen]
  rcases h.binary v (List.mem_of_getElem? hv) with rfl | rfl
  · exact hzero
  · exact hone

end Selects

end LPRounding
