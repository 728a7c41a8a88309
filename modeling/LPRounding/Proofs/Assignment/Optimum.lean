import LPRounding.Proofs.Assignment.Answer
import LPRounding.Proofs.Run.Improvement

/-!
Generalised assignment without loss. Every assignment that fits is a point of the first model, so a
run that rounds exactly costs no more than any of them; runs from integral points round exactly.
-/

namespace LPRounding

set_option linter.unusedSectionVars false

variable {K : Type} [Field K] [LinearOrder K] [IsStrictOrderedRing K] [FloorRing K]

namespace Assignment

variable {p : Assignment K}

/-- The job at place `k` goes to the machine at place `a k`. -/
def place (p : Assignment K) (a : Fin p.jobs.length → Fin p.machines.length) : List K :=
  (List.finRange p.jobs.length).flatMap fun k =>
    (List.finRange p.machines.length).map fun i => if a k = i then 1 else 0

/-- Each job has time on its machine, and no machine is given more than its budget. -/
structure Fits (p : Assignment K) (a : Fin p.jobs.length → Fin p.machines.length) : Prop where
  time : ∀ k, p.timeAt k (a k) ≤ p.budget (p.machines.get (a k))
  load : ∀ i, ∑ k with a k = i, p.timeAt k i ≤ p.budget (p.machines.get i)

/-- What the jobs cost where they go. -/
def totalCost (p : Assignment K) (a : Fin p.jobs.length → Fin p.machines.length) : K :=
  ∑ k, p.cost (p.jobs.get k) (p.machines.get (a k))

variable {a : Fin p.jobs.length → Fin p.machines.length}

theorem length_place : (p.place a).length = p.jobs.length * p.machines.length := by
  simp [place, List.length_flatMap]

theorem place_slot (k : Fin p.jobs.length) (i : Fin p.machines.length) :
    (p.place a)[p.slot k i]? = some (if a k = i then 1 else 0) := by
  have h := getElem?_grid (List.finRange p.jobs.length) (List.finRange p.machines.length)
    (fun k i => if a k = i then (1 : K) else 0) (k := k) (i := i) (by simp)
  simpa [place, slot] using h

theorem mem_rows {r : Row K} (h : r ∈ p.model.rows) :
    (∃ k : Fin p.jobs.length, r = p.jobRow k) ∨
      ∃ i : Fin p.machines.length, r = p.machineRow i (p.machines.get i) := by
  rcases List.mem_append.mp h with h | h
  · obtain ⟨k, hk, rfl⟩ := List.mem_map.mp h
    exact .inl ⟨⟨k, List.mem_range.mp hk⟩, rfl⟩
  · rw [zipIdx_eq_map_finRange, List.map_map] at h
    obtain ⟨i, -, rfl⟩ := List.mem_map.mp h
    exact .inr ⟨i, rfl⟩

theorem Fits.admits (h : p.Fits a) : p.model.Admits (p.place a) := by
  refine ⟨by simp [length_place, model, length_pairs], fun c col v hcol hv => ?_, fun r hr _ => ?_⟩
  · have hc : c < p.pairs.length := by
      simpa [model] using (List.getElem?_eq_some_iff.mp hcol).1
    obtain ⟨k, i, rfl⟩ := exists_slot hc
    obtain rfl := Option.some.inj ((column_at k i).symm.trans hcol)
    obtain rfl := Option.some.inj ((place_slot k i).symm.trans hv)
    simp only [column]
    split
    · show (0 : K) ≤ if a k = i then 1 else 0
      split <;> simp
    · next hlong =>
      have hne : a k ≠ i := by
        rintro rfl
        exact hlong (h.time k)
      simp [Column.Admits, Bound.Admits, hne]
  · rcases mem_rows hr with ⟨k, rfl⟩ | ⟨i, rfl⟩
    · rw [weigh_jobRow]
      simp [jobRow, Bound.Admits, place_slot]
    · show Bound.Admits _ (weigh (p.machineRow i p.machines[i]).coefs _)
      rw [weigh_machineRow]
      simpa [machineRow, Bound.Admits, place_slot, Finset.sum_filter] using h.load i

theorem zipWith_grid {α β γ δ ε : Type} (f : γ → δ → ε) (xs : List α) (ys : List β)
    (g : α → β → γ) (h : α → β → δ) :
    List.zipWith f (xs.flatMap fun x => ys.map (g x)) (xs.flatMap fun x => ys.map (h x)) =
      xs.flatMap fun x => ys.map fun y => f (g x y) (h x y) := by
  induction xs with
  | nil => rfl
  | cons x xs ih =>
    rw [List.flatMap_cons, List.flatMap_cons, List.flatMap_cons, List.zipWith_append (by simp), ih,
      List.zipWith_map, List.zipWith_self]

theorem columns_eq (p : Assignment K) : p.model.columns =
    (List.finRange p.jobs.length).flatMap fun k =>
      (List.finRange p.machines.length).map fun i =>
        p.column (p.jobs.get k) (p.machines.get i) := by
  have hlength : p.model.columns.length = p.pairs.length := by simp [model]
  refine List.ext_getElem (by simp [hlength, length_pairs, List.length_flatMap]) fun c hc hc' => ?_
  obtain ⟨k, i, rfl⟩ := exists_slot (hlength ▸ hc)
  have hgrid := getElem?_grid (List.finRange p.jobs.length) (List.finRange p.machines.length)
    (fun k i => p.column (p.jobs.get k) (p.machines.get i)) (k := k) (i := i) (by simp)
  refine Option.some.inj ?_
  rw [← List.getElem?_eq_getElem hc, ← List.getElem?_eq_getElem hc', column_at]
  simpa [slot] using hgrid.symm

theorem costOf_place : p.model.costOf (p.place a) = p.totalCost a := by
  have hcost (j m : Node) : (p.column j m).cost = p.cost j m := by
    unfold column
    split <;> rfl
  rw [Model.costOf, columns_eq, place, zipWith_grid, List.flatMap_def, List.sum_flatten,
    List.map_map, totalCost, Fin.sum_univ_def]
  congr 1
  refine List.map_congr_left fun k _ => ?_
  simp [hcost, ← Fin.sum_univ_def]

variable [Backend K] {s t : Run (Assignment K) K}

theorem still_assign {c : Nat} {j k : Node} {u : Unit} (h : Returns (assign c j k) s u t) :
    Engine.Still s t := by
  simp only [assign, returns_bind, returns_lift, returns_modify, Action.returns_model] at h
  obtain ⟨_, _, ⟨rfl, rfl⟩, v, _, ⟨-, rfl⟩, rfl⟩ := h
  split
  · exact ⟨rfl, rfl⟩
  · exact .refl _

theorem still_readAnswer {u : Unit} (h : Returns readAnswer s u t) : Engine.Still s t := by
  simp only [readAnswer, returns_bind, Action.returns_problem] at h
  obtain ⟨_, _, ⟨rfl, rfl⟩, h⟩ := h
  generalize s.problem.pairs.zipIdx = entries at h
  induction entries generalizing s with
  | nil =>
    obtain ⟨-, rfl⟩ := returns_pure.mp h
    exact .refl _
  | cons e rest ih =>
    obtain ⟨v, hv, h⟩ := returns_forM_cons.mp h
    exact (still_assign hv).trans (ih h)

theorem policies_restrained : (policies : Policies (Assignment K) K).Restrained where
  solve := Action.solveModel_appended
  resolve := Action.solveModel_appended
  ask h := by
    obtain ⟨rfl, -⟩ := RoundRule.returns_zeroThenOne h
    exact .refl _
  relax h := by
    obtain ⟨rfl, -⟩ := returns_relaxable h
    exact .refl _
  stop h := StopRule.still .allFixed h
  setSolution := still_readAnswer

/-- The problem is still `p`, and the last point, if there is one, consists of zeros and ones. -/
def Integral (p : Assignment K) (s : Run (Assignment K) K) : Prop :=
  s.problem = p ∧ ∀ x, s.lp.solution = some x → ∀ v ∈ x.values, v = 0 ∨ v = 1

theorem Integral.of_agree (h : p.Integral s) (ha : s.Agree t) : p.Integral t :=
  ⟨ha.1.trans h.1, ha.2.symm ▸ h.2⟩

theorem Integral.solve (hint : ∀ (s : System K) x c, Backend.solver s = .optimal x c →
    ∀ v ∈ x, v = 0 ∨ v = 1) (h : p.Integral s) {st : Status}
    (hr : Returns Action.solveModel s st t) : p.Integral t := by
  obtain ⟨hp, hm⟩ := Action.returns_solveModel hr
  refine ⟨hp.trans h.1, fun x hx => ?_⟩
  obtain ⟨_, hlp, ⟨-, -, -, rfl⟩ | ⟨-, -, y, c, hy, rfl⟩ | ⟨-, rfl⟩⟩ := Model.returns_solve hm
  · obtain rfl := Option.some.inj ((congrArg Model.solution hlp).symm.trans hx)
    simp
  · obtain rfl := Option.some.inj ((congrArg Model.solution hlp).symm.trans hx)
    exact hint _ y c hy
  · cases (congrArg Model.solution hlp).symm.trans hx

theorem Integral.step (hint : ∀ (s : System K) x c, Backend.solver s = .optimal x c →
    ∀ v ∈ x, v = 0 ∨ v = 1) {a b : Engine.Stage K × Run (Assignment K) K}
    (h : Engine.Step policies policies.ask a b) (ha : p.Integral a.2) :
    (∃ out, b.1 = .ended out) ∨ p.Integral b.2 := by
  cases h with
  | solve h =>
    obtain ⟨u, hu, hut⟩ := Engine.returns_solve h
    exact .inr ((ha.solve hint hu).of_agree hut)
  | enter hb hn =>
    obtain ⟨rfl, -⟩ := Engine.returns_allFixed hb
    exact .inr (ha.of_agree (Engine.returns_beginIteration hn))
  | skip h =>
    obtain ⟨rfl, -⟩ := RoundRule.returns_zeroThenOne h
    exact .inr ha
  | fix hv h =>
    obtain ⟨rfl, -⟩ := RoundRule.returns_zeroThenOne hv
    simp only [returns_bind, Action.returns_onModel, Action.returns_note] at h
    obtain ⟨_, _, ⟨m, hm, rfl⟩, rfl⟩ := h
    obtain ⟨c, -, -, rfl⟩ := Model.returns_fixColumn.mp hm
    exact .inr ha
  | idle | busy | limit | out => exact .inr ha
  | leave _ h =>
    obtain ⟨rfl, -⟩ := returns_relaxable h
    exact .inr ha
  | relax _ hb h =>
    obtain ⟨rfl, -⟩ := returns_relaxable hb
    simp only [returns_bind, Action.returns_onModel, Action.returns_note] at h
    obtain ⟨_, _, ⟨m, hm, rfl⟩, rfl⟩ := h
    obtain ⟨r, -, -, rfl⟩ := Model.returns_relaxRow.mp hm
    exact .inr ha
  | @resolve s _ n r l _ _ h =>
    obtain ⟨u, hu, hut⟩ := Engine.returns_settle h
    have hnoted : p.Integral { s with trace := s.trace ++ [.iterated n r l] } := ha
    exact .inr ((hnoted.solve hint hu).of_agree hut)
  | finish | lose => exact .inl ⟨_, rfl⟩

theorem Integral.reached (hint : ∀ (s : System K) x c, Backend.solver s = .optimal x c →
    ∀ v ∈ x, v = 0 ∨ v = 1) (hs : p.Integral s) {stage : Engine.Stage K}
    (h : Engine.Reached policies policies.ask s stage t) :
    (∃ out, stage = .ended out) ∨ p.Integral t := by
  refine h.induct (.inr hs) fun {a b} _ hstep ih => ?_
  rcases ih with ⟨out, hout⟩ | ih
  · obtain ⟨stage, u⟩ := a
    obtain rfl : stage = .ended out := hout
    exact absurd hstep Engine.not_step_of_ended
  · exact ih.step hint hstep

/-- From integral points the default rule rounds exactly. -/
theorem exact_of_integral (hint : ∀ (s : System K) x c, Backend.solver s = .optimal x c →
    ∀ v ∈ x, v = 0 ∨ v = 1) (hε : s.problem.tolerance.epsilon ≤ 1)
    (hs : s.lp.solution = none) : Engine.Exact policies s := by
  refine ⟨policies_restrained, rfl, rfl, fun {n j r rest t u v} h hv => ?_⟩
  have hstart : s.problem.Integral s := ⟨rfl, fun x hx => by cases hs.symm.trans hx⟩
  obtain ⟨hp, hvalues⟩ := (hstart.reached hint h).resolve_left nofun
  obtain ⟨-, x, hx, hround⟩ := RoundRule.returns_zeroThenOne hv
  obtain ⟨-, sol, hsol, hxj⟩ := Model.columnValue_eq_ok.mp hx
  have htol : (Roundable.tolerance t.problem).epsilon ≤ 1 := hp ▸ hε
  rw [hx]
  rcases hvalues sol hsol x (List.mem_of_getElem? hxj) with rfl | rfl
  · split at hround
    · exact congrArg Except.ok (Option.some.inj hround).symm
    · next hnone =>
      -- a tolerance that does not reach zero from zero reaches nothing
      have hfar : ¬ |(0 : K) - 1| < (Roundable.tolerance t.problem).epsilon := fun hlt =>
        hnone (lt_of_le_of_lt (by simp) hlt)
      cases hround.trans (if_neg hfar)
  · rw [abs_one, if_neg (not_lt.mpr htol)] at hround
    split at hround
    · exact congrArg Except.ok (Option.some.inj hround).symm
    · cases hround

/-- Where every column is fixed at the value that it has, a faithful solver never loses the point,
the objectives of the solves never get worse, and generalised assignment costs no more than any
assignment that fits. -/
theorem exact_rounding_loses_nothing (hsolver : (Backend.solver : Solver K).Faithful) :
    (∀ (P : Type) [Roundable P K] (p : Policies P K) (s : Run P K), Engine.Exact p s →
      (∀ t, ¬ Engine.Reached p p.ask s (.solved false .infeasible) t) ∧
      (∀ first again t u, Engine.Reached p p.ask s (.solved first .optimal) t →
        Engine.Walk p p.ask (.solved first .optimal, t) (.solved again .optimal, u) →
        ∃ x y, t.lp.objective = .ok x ∧ u.lp.objective = .ok y ∧
          s.lp.direction.NoWorse x y) ∧
      ∀ out t, Returns (Engine.run p) s out t → out.status = .optimal →
        ∃ u x y, Returns (Engine.solve p) s .optimal u ∧ u.lp.objective = .ok x ∧
          out.objective = some y ∧ s.lp.direction.NoWorse x y) ∧
    ∀ (pol : Policies (Assignment K) K) (s t : Run (Assignment K) K) (out : Outcome K),
      Engine.Exact pol s → s.lp = s.problem.model →
      Returns (Engine.run pol) s out t → out.status = .optimal →
      ∀ a, s.problem.Fits a → ∃ c, out.objective = some c ∧ c ≤ s.problem.totalCost a := by
  refine ⟨fun P _ p s hp => ⟨fun t => hp.not_lost hsolver, fun first again t u ht hwalk => ?_,
    fun out t h ho => ?_⟩, fun pol s t out hp hm h ho a ha => ?_⟩
  · exact hp.improved hsolver ht rfl hwalk rfl
  · obtain ⟨u, x, y, hu, -, hreturned⟩ := hp.returned hsolver h ho
    exact ⟨u, x, y, hu, hreturned⟩
  · obtain ⟨u, x, y, -, hu, hx, hout, hle⟩ := hp.returned hsolver h ho
    obtain ⟨sol, hlp, -, -, hleast⟩ := Model.cheapest_of_solve hsolver hu
    have hobjective : sol.objective = x := by
      obtain ⟨sol', hsol', rfl⟩ := Model.objective_eq_ok.mp hx
      rw [hlp] at hsol'
      rw [Option.some.inj hsol']
    have hfirst : x ≤ s.problem.totalCost a := by
      rw [hm] at hleast
      simpa [Model.signed, model, hobjective, ← costOf_place] using hleast _ ha.admits
    refine ⟨y, hout, le_trans ?_ hfirst⟩
    rw [hm] at hle
    exact hle

def rivals : Assignment ℚ where
  tolerance := ⟨1 / 10⟩
  machines := [.number 1, .number 2]
  jobs := [.number 3, .number 4]
  cost j m := if m = .number 1 then 1 else if j = .number 3 then 3 else 2
  time _ _ := 1
  budget _ := 1

@[reducible] def rivalsBackend : Backend ℚ where
  solver := Solver.proving
    [([1, 0, 0, 1], { atMost := [1, 0], equal := [-2, -2] }), ([1, 0, 0, 1], {})] []
  flow _ _ _ := { value := 0, net := fun _ _ => 0 }
  passes := 5

theorem rivals_fit : rivals.Fits fun k => k := ⟨by decide +kernel, by decide +kernel⟩

theorem rivals_optimum :
    let _ := rivalsBackend
    ∃ (out : Outcome ℚ) (t u : Run (Assignment ℚ) ℚ) (x y : ℚ),
      Returns (Engine.run policies) { problem := rivals, lp := rivals.model } out t ∧
      out.status = .optimal ∧
      (∀ v, ¬ Engine.Reached policies policies.ask { problem := rivals, lp := rivals.model }
        (.solved false .infeasible) v) ∧
      Returns (Engine.solve policies) { problem := rivals, lp := rivals.model } .optimal u ∧
      u.lp.objective = .ok x ∧ out.objective = some y ∧ y ≤ x ∧ y ≤ 3 := by
  let _ := rivalsBackend
  have hrun : yields (Engine.run policies) { problem := rivals, lp := rivals.model }
      (fun out => out.status = .optimal) = true := by decide +kernel
  obtain ⟨out, t, h, ho⟩ := exists_returns hrun
  have ho : out.status = .optimal := by simpa using ho
  have hexact : Engine.Exact policies
      ({ problem := rivals, lp := rivals.model } : Run (Assignment ℚ) ℚ) := by
    refine exact_of_integral (fun s x c hx => ?_) (by decide +kernel) rfl
    have hpoint : x = [1, 0, 0, 1] := by simpa using Solver.mem_of_proving hx
    simp [hpoint]
  obtain ⟨hall, hcost⟩ := exact_rounding_loses_nothing (K := ℚ) (Solver.proving_faithful _ _)
  obtain ⟨hlost, -, hreturned⟩ := hall _ _ _ hexact
  obtain ⟨u, x, y, hu, hx, hy, hle⟩ := hreturned out t h ho
  obtain ⟨c, hc, hthree⟩ := hcost _ _ t out hexact rfl h ho _ rivals_fit
  obtain rfl := Option.some.inj (hy.symm.trans hc)
  have htotal : rivals.totalCost (fun k => k) = 3 := by decide +kernel
  exact ⟨out, t, u, x, y, h, ho, hlost, hu, hx, hy, hle, htotal ▸ hthree⟩

end Assignment

end LPRounding
