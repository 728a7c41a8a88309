import LPRounding.Proofs.LP.Honest

/-!
Prices of rows. A price for each row bounds from below what the points of a system cost, so a point
at the bound is a cheapest one, and a bound above zero for a system that costs nothing shows that
there is no point. A solver that is told points and prices can so prove its answers.
-/

namespace LPRounding

variable {K : Type}

section Definitions

variable [Scalar K]

/-- What the solver reports as optimal is a cheapest point with what it costs, and it reports
infeasible just systems without points. -/
structure Solver.Faithful (solver : Solver K) : Prop where
  cheapest : ∀ s x c, solver s = .optimal x c → s.Cheapest x ∧ c = s.objective x
  infeasible : ∀ s, solver s = .infeasible → ∀ x, ¬ s.Feasible x

structure Prices (K : Type) where
  atMost : List K := []
  equal : List K := []

def scaled (cs : List (Constraint K)) (ys : List K) : List (Nat × K) :=
  (cs.zip ys).flatMap fun e => e.1.coefs.map fun (j, a) => (j, e.2 * a)

def sides (cs : List (Constraint K)) (ys : List K) : K :=
  Scalar.sum ((cs.zip ys).map fun e => e.2 * e.1.side)

def coefAt (coefs : List (Nat × K)) (j : Nat) : K :=
  Scalar.sum ((coefs.filter fun e => e.1 = j).map Prod.snd)

def least (b : Option K × Option K) (r : K) : K :=
  r * if 0 ≤ r then b.1.getD 0 else b.2.getD 0

def hasLeast (b : Option K × Option K) (r : K) : Bool :=
  (0 < r → b.1.isSome) && (r < 0 → b.2.isSome)

namespace System

/-- What a point costs once the rows are priced, but for their sides. -/
def reduced (s : System K) (p : Prices K) : List (Nat × K) :=
  (s.cost.zipIdx.map fun e => (e.2, e.1)) ++ (scaled s.atMost p.atMost ++ scaled s.equal p.equal)

def range (s : System K) (j : Nat) : Option K × Option K := s.bounds.getD j (none, none)

/-- Limits have no negative prices, and every column has a least reduced cost. -/
def bears (s : System K) (p : Prices K) : Bool :=
  p.atMost.all (0 ≤ ·) &&
    (List.range s.bounds.length).all fun j => hasLeast (s.range j) (coefAt (s.reduced p) j)

def lowest (s : System K) (p : Prices K) : K :=
  Scalar.sum ((List.range s.bounds.length).map fun j => least (s.range j) (coefAt (s.reduced p) j))
    - (sides s.atMost p.atMost + sides s.equal p.equal)

end System

/-- Answers with the first of the points that its prices prove to be cheapest, or reports a system
infeasible that prices refute, and else says nothing. -/
def Solver.proving [DecidableEq K] (points : List (List K × Prices K))
    (refutations : List (Prices K)) : Solver K := fun s =>
  let free : System K := { s with cost := [] }
  match points.find? fun e =>
    decide (s.Feasible e.1) && (s.bears e.2 && decide (s.lowest e.2 = s.objective e.1)) with
  | some e => .optimal e.1 (s.objective e.1)
  | none =>
    if refutations.any fun p => free.bears p && decide (0 < free.lowest p) then .infeasible
    else .undecided

end Definitions

set_option linter.unusedSectionVars false

variable [Field K] [LinearOrder K] [IsStrictOrderedRing K] [FloorRing K]

theorem sum_range (n : Nat) (f : Nat → K) :
    ((List.range n).map f).sum = ∑ j ∈ Finset.range n, f j := rfl

theorem weights_eq_sum (coefs : List (Nat × K)) (x : List K) :
    weights coefs (fun j => x.getD j 0) =
      ∑ j ∈ Finset.range x.length, coefAt coefs j * x.getD j 0 := by
  induction coefs with
  | nil => simp [weights, coefAt]
  | cons e coefs ih =>
    have hcons (j : Nat) : coefAt (e :: coefs) j =
        (if e.1 = j then e.2 else 0) + coefAt coefs j := by
      by_cases h : e.1 = j <;> simp [coefAt, h]
    rw [weights_apply] at ih ⊢
    simp only [List.map_cons, List.sum_cons, ih, hcons, add_mul, Finset.sum_add_distrib, ite_mul,
      zero_mul, Finset.sum_ite_eq, Finset.mem_range]
    congr 1
    split
    · rfl
    · next hlt => rw [List.getD_eq_default _ _ (not_lt.mp hlt), mul_zero]

theorem weights_append (as bs : List (Nat × K)) : weights (as ++ bs) = weights as + weights bs := by
  simp [weights]

theorem weights_scaled (cs : List (Constraint K)) (ys : List K) (d : Nat → K) :
    weights (scaled cs ys) d = ((cs.zip ys).map fun e => e.2 * weights e.1.coefs d).sum := by
  have hmul (coefs : List (Nat × K)) (y : K) :
      weights (coefs.map fun (j, a) => (j, y * a)) d = y * weights coefs d := by
    simp only [weights_apply, List.map_map, Function.comp_def, mul_assoc, List.sum_map_mul_left]
  unfold scaled
  induction cs.zip ys with
  | nil => simp [weights]
  | cons e es ih =>
    rw [List.flatMap_cons, weights_append, LinearMap.add_apply, hmul, ih, List.map_cons,
      List.sum_cons]

theorem least_le {b : Option K × Option K} {r x : K} (h : hasLeast b r = true) (hx : Within b x) :
    least b r ≤ r * x := by
  simp only [hasLeast, Bool.and_eq_true, decide_eq_true_eq] at h
  unfold least
  rcases lt_trichotomy r 0 with hr | rfl | hr
  · obtain ⟨u, hu⟩ := Option.isSome_iff_exists.mp (h.2 hr)
    rw [if_neg (not_le.mpr hr), hu, Option.getD_some]
    exact mul_le_mul_of_nonpos_left (hx.2 u hu) hr.le
  · simp
  · obtain ⟨l, hl⟩ := Option.isSome_iff_exists.mp (h.1 hr)
    rw [if_pos hr.le, hl, Option.getD_some]
    exact mul_le_mul_of_nonneg_left (hx.1 l hl) hr.le

namespace System

variable {s : System K} {x : List K} {p : Prices K}

theorem Feasible.within (h : s.Feasible x) {j : Nat} (hj : j < x.length) :
    Within (s.range j) (x.getD j 0) := by
  have hb : j < s.bounds.length := h.length ▸ hj
  refine h.bounds j _ _ ?_ ?_
  · rw [range, List.getD_eq_getElem?_getD, List.getElem?_eq_getElem hb, Option.getD_some]
  · rw [List.getD_eq_getElem?_getD, List.getElem?_eq_getElem hj, Option.getD_some]

theorem Feasible.scaled_le (h : s.Feasible x) (hp : p.atMost.all (0 ≤ ·) = true) :
    weights (scaled s.atMost p.atMost) (fun j => x.getD j 0) ≤ sides s.atMost p.atMost := by
  rw [weights_scaled, sides, Scalar.sum_eq]
  refine List.sum_le_sum fun e he => ?_
  obtain ⟨hc, hy⟩ := List.of_mem_zip he
  have hle := h.atMost e.1 hc
  rw [weigh_eq_weights] at hle
  exact mul_le_mul_of_nonneg_left hle (by simpa using List.all_eq_true.mp hp e.2 hy)

theorem Feasible.scaled_eq (h : s.Feasible x) :
    weights (scaled s.equal p.equal) (fun j => x.getD j 0) = sides s.equal p.equal := by
  rw [weights_scaled, sides, Scalar.sum_eq]
  congr 1
  refine List.map_congr_left fun e he => ?_
  have heq := h.equal e.1 (List.of_mem_zip he).1
  rw [weigh_eq_weights] at heq
  rw [heq]

/-- No point of a system costs less than prices of its rows allow. -/
theorem Feasible.lowest_le (h : s.Feasible x) (hp : s.bears p = true) :
    s.lowest p ≤ s.objective x := by
  obtain ⟨hnonneg, hleast⟩ := Bool.and_eq_true_iff.mp hp
  have hcolumns : ∑ j ∈ Finset.range x.length, least (s.range j) (coefAt (s.reduced p) j) ≤
      weights (s.reduced p) fun j => x.getD j 0 := by
    rw [weights_eq_sum]
    refine Finset.sum_le_sum fun j hj => ?_
    have hj := Finset.mem_range.mp hj
    exact least_le (List.all_eq_true.mp hleast j (List.mem_range.mpr (h.length ▸ hj))) (h.within hj)
  -- the rows contribute their sides at most, as limits have no negative prices
  have hsplit : weights (s.reduced p) (fun j => x.getD j 0) = s.objective x +
      (weights (scaled s.atMost p.atMost) (fun j => x.getD j 0) + sides s.equal p.equal) := by
    rw [reduced, weights_append, weights_append, LinearMap.add_apply, LinearMap.add_apply,
      ← objective_eq, h.scaled_eq]
  have hrows := h.scaled_le hnonneg
  rw [lowest, Scalar.sum_eq, sum_range, ← h.length]
  linarith

end System

theorem Solver.proving_faithful [DecidableEq K] (points : List (List K × Prices K))
    (refutations : List (Prices K)) : (Solver.proving points refutations).Faithful := by
  constructor
  · intro s x c h
    unfold proving at h
    simp only at h
    split at h
    · next e he =>
      obtain ⟨rfl, rfl⟩ := Verdict.optimal.inj h
      have htest := List.find?_some he
      simp only [Bool.and_eq_true, decide_eq_true_eq] at htest
      obtain ⟨hx, hp, heq⟩ := htest
      exact ⟨⟨hx, fun y hy => heq ▸ hy.lowest_le hp⟩, rfl⟩
    · split at h <;> cases h
  · intro s h x hx
    unfold proving at h
    simp only at h
    split at h
    · cases h
    split at h
    · next hany =>
      obtain ⟨p, -, htest⟩ := List.any_eq_true.mp hany
      simp only [Bool.and_eq_true, decide_eq_true_eq] at htest
      have hfree : ({ s with cost := [] } : System K).Feasible x :=
        ⟨hx.length, hx.bounds, hx.atMost, hx.equal⟩
      have hle := hfree.lowest_le htest.1
      have hzero : ({ s with cost := [] } : System K).objective x = 0 := by
        simp [System.objective]
      linarith [htest.2]
    · cases h

theorem Solver.mem_of_proving [DecidableEq K] {points : List (List K × Prices K)}
    {refutations : List (Prices K)} {s : System K} {x : List K} {c : K}
    (h : Solver.proving points refutations s = .optimal x c) : x ∈ points.map Prod.fst := by
  unfold proving at h
  simp only at h
  split at h
  · next e he =>
    obtain ⟨rfl, -⟩ := Verdict.optimal.inj h
    exact List.mem_map_of_mem (List.mem_of_find?_eq_some he)
  · split at h <;> cases h

/-- What a point costs in the terms of the model. -/
def Model.costOf (m : Model K) (x : List K) : K :=
  (List.zipWith (fun c y => c.cost * y) m.columns x).sum

theorem Model.signed_signed (m : Model K) (a : K) : m.signed (m.signed a) = a := by
  cases h : m.direction <;> simp [signed, h]

theorem Model.objective_system (m : Model K) (x : List K) :
    m.system.objective x = m.signed (m.costOf x) := by
  rw [System.objective, Scalar.sum_eq, costOf]
  change (List.zipWith (· * ·) (m.columns.map fun c => m.signed c.cost) x).sum = _
  generalize hcs : m.columns = cs
  clear hcs
  cases h : m.direction
  · simp [signed, h, List.zipWith_map_left]
  · simp only [signed, h, List.zipWith_map_left, neg_mul]
    induction cs generalizing x with
    | nil => simp
    | cons c cs ih =>
      cases x with
      | nil => simp
      | cons y x =>
        simp only [List.zipWith_cons_cons, List.sum_cons, ih x]
        ring

theorem Solver.Faithful.sound {solver : Solver K} (h : solver.Faithful) : solver.Sound :=
  fun s x c hx => (h.cheapest s x c hx).1.1

theorem Model.empty_of_solve {solver : Solver K} (hs : solver.Faithful) {m m' : Model K}
    (h : Returns (solve solver) m .infeasible m') (x : List K) : ¬ m.Admits x := by
  intro hx
  have hends : Ends (solve solver) m (fun st _ => st ≠ .infeasible) fun _ => True := by
    simp only [solve, ends_bind, ends_get]
    split
    · trivial
    simp only [ends_bind, ends_set]
    split
    · next hc =>
      split
      · simp
      · next hn => exact (hn (admitsNothing_of_admits (m := m) (by simpa using hc) hx)).elim
    · split
      · simp
      · next hi => exact absurd (feasible_iff_admits.mpr hx) (hs.infeasible _ hi x)
      · simp
      · trivial
      · trivial
  exact (ends_iff.mp hends).1 _ _ h rfl

theorem Model.cheapest_of_solve {solver : Solver K} (hs : solver.Faithful) {m m' : Model K}
    (h : Returns (solve solver) m .optimal m') :
    ∃ sol, m' = { m with solution := some sol } ∧ m.Admits sol.values ∧
      sol.objective = m.costOf sol.values ∧
      ∀ x, m.Admits x → m.signed sol.objective ≤ m.signed (m.costOf x) := by
  obtain ⟨_, rfl, ⟨-, hc, ha, rfl⟩ | ⟨-, -, x, c, hx, rfl⟩ | ⟨hn, -⟩⟩ := returns_solve h
  · have hzero (x : List K) : m.costOf x = 0 := by simp [costOf, hc]
    exact ⟨_, rfl, admits_nil hc ha, (hzero _).symm, fun x _ => by rw [hzero]⟩
  · obtain ⟨⟨hpoint, hleast⟩, rfl⟩ := hs.cheapest _ x c hx
    refine ⟨_, rfl, feasible_iff_admits.mp hpoint, ?_, fun y hy => ?_⟩
    · rw [objective_system, signed_signed]
    · rw [signed_signed, ← objective_system]
      exact hleast y (feasible_iff_admits.mpr hy)
  · exact absurd rfl hn

end LPRounding
