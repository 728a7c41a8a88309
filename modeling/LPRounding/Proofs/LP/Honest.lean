import LPRounding.Proofs.LP.Vertex
import LPRounding.Proofs.LP.Trying
import LPRounding.Proofs.Ends

/-!
Solvers that give up for a reason. A model with a point, whose points stay within a range, then has
an optimal point after every solve that comes to an answer.
-/

namespace LPRounding

variable {K : Type}

section Definitions

variable [Scalar K]

/-- The solver reports points alone, infeasible just systems without points, and unbounded just
systems whose points cost less than any number. -/
structure Solver.Honest (solver : Solver K) : Prop where
  sound : solver.Sound
  infeasible : ∀ s, solver s = .infeasible → ∀ x, ¬ s.Feasible x
  unbounded : ∀ s, solver s = .unbounded → ∀ c, ∃ x, s.Feasible x ∧ s.objective x < c

/-- The solver reports points alone, and one for every system that has some and none out of a
range. -/
structure Solver.Settles (solver : Solver K) : Prop where
  sound : solver.Sound
  optimal : ∀ s (most : K), (∃ x, s.Feasible x) →
    (∀ x, s.Feasible x → ∀ j, -most ≤ x.getD j 0 ∧ x.getD j 0 ≤ most) →
    ∃ x c, solver s = .optimal x c

def Solver.offering [DecidableEq K] (points : List (List K)) : Solver K := fun s =>
  match points.find? fun x => s.Feasible x with
  | some x => .optimal x (s.objective x)
  | none => .undecided

theorem Solver.offering_honest [DecidableEq K] (points : List (List K)) :
    (Solver.offering points).Honest := by
  refine ⟨fun s x c h => ?_, fun s h => ?_, fun s h => ?_⟩ <;> unfold offering at h <;> split at h
  · next hf =>
    obtain ⟨rfl, -⟩ := Verdict.optimal.inj h
    simpa using List.find?_some hf
  all_goals cases h

open Classical in
noncomputable def Solver.finding [DecidableEq K] (points : List (List K)) : Solver K := fun s =>
  match points.find? fun x => s.Feasible x with
  | some x => .optimal x (s.objective x)
  | none => if h : ∃ x, s.Feasible x then .optimal h.choose (s.objective h.choose) else .infeasible

theorem Solver.finding_settles [DecidableEq K] (points : List (List K)) :
    (Solver.finding points).Settles where
  sound s x c h := by
    unfold finding at h
    split at h
    · next hf =>
      obtain ⟨rfl, -⟩ := Verdict.optimal.inj h
      simpa using List.find?_some hf
    · split at h
      · next hex =>
        obtain ⟨rfl, -⟩ := Verdict.optimal.inj h
        exact hex.choose_spec
      · cases h
  optimal s most hex hrange := by
    unfold finding
    split
    · exact ⟨_, _, rfl⟩
    · exact ⟨_, _, dif_pos hex⟩

end Definitions

set_option linter.unusedSectionVars false

variable [Field K] [LinearOrder K] [IsStrictOrderedRing K] [FloorRing K] {m m' : Model K}

namespace Model

theorem admitsNothing_of_admits (hc : m.columns = []) {x : List K} (h : m.Admits x) :
    m.admitsNothing = true := by
  obtain rfl : x = [] := List.length_eq_zero_iff.mp (h.length.trans (by rw [hc]; rfl))
  refine List.all_eq_true.mpr fun r hr => ?_
  obtain ⟨hr, hk⟩ := mem_keptRows.mp hr
  have ha := h.rows r hr hk
  rw [weigh_eq, List.map_congr_left (g := fun _ => 0) (by simp), List.map_const',
    List.sum_replicate,
    smul_zero] at ha
  unfold Bound.Admits at ha
  cases hb : r.bound.kind <;> simp only [hb] at ha <;> simp [Bound.floor?, Bound.ceiling?, hb]
  · exact ha
  · exact ha
  · exact ha
  · exact ⟨ha.ge, ha.le⟩

theorem optimal_of_bounded {solver : Solver K} (hs : solver.Honest) (hx : ∃ x, m.Admits x)
    {least : K} (hleast : ∀ x, m.Admits x → least ≤ m.system.objective x) {st : Status}
    (h : Returns (solve solver) m st m') : st = .optimal := by
  have hends : Ends (solve solver) m (fun st _ => st = .optimal) fun _ => True := by
    obtain ⟨x, hx⟩ := hx
    simp only [solve, ends_bind, ends_get]
    split
    · trivial
    simp only [ends_bind, ends_set]
    split
    · next hc =>
      split
      · simp
      · next hn => exact (hn (admitsNothing_of_admits (m := m) (by simpa using hc) hx)).elim
    · split
      · simp
      · next hi => exact absurd (feasible_iff_admits.mpr hx) (hs.infeasible _ hi x)
      · next hu =>
        obtain ⟨z, hz, hlt⟩ := hs.unbounded _ hu least
        exact absurd (hleast z (feasible_iff_admits.mp hz)) (not_le.mpr hlt)
      · trivial
      · trivial
  exact (ends_iff.mp hends).1 _ _ h

theorem optimal_of_solve {solver : Solver K} (hs : solver.Honest) (hx : ∃ x, m.Admits x) (most : K)
    (hr : ∀ x, m.Admits x → ∀ j, |x.getD j 0| ≤ most) {st : Status}
    (h : Returns (solve solver) m st m') : st = .optimal := by
  obtain ⟨x, hx⟩ := hx
  obtain ⟨y, -, hy⟩ := System.exists_cheapest_vertex ⟨x, feasible_iff_admits.mpr hx⟩
    fun z hz => hr z (feasible_iff_admits.mp hz)
  exact optimal_of_bounded hs ⟨x, hx⟩ (fun z hz => hy.2 z (feasible_iff_admits.mpr hz)) h

theorem exists_optimal {solver : Solver K} (hs : solver.Settles) (hl : m.loaded = true)
    (hx : ∃ x, m.Admits x) (most : K)
    (hr : ∀ x, m.Admits x → ∀ j, -most ≤ x.getD j 0 ∧ x.getD j 0 ≤ most) :
    ∃ m', Returns (solve solver) m .optimal m' := by
  have hends : Ends (solve solver) m (fun st _ => st = .optimal) fun _ => False := by
    obtain ⟨x, hx⟩ := hx
    simp only [solve, ends_bind, ends_get]
    split
    · next hn => simp [hl] at hn
    simp only [ends_bind, ends_set]
    split
    · next hc =>
      split
      · simp
      · next hn => exact (hn (admitsNothing_of_admits (m := m) (by simpa using hc) hx)).elim
    · obtain ⟨y, c, hy⟩ := hs.optimal m.system most ⟨x, feasible_iff_admits.mpr hx⟩
        fun z hz => hr z (feasible_iff_admits.mp hz)
      have hy : solver { m with solution := none }.system = .optimal y c := hy
      simp [hy]
  obtain ⟨st, m', h, rfl⟩ := hends.exists_returns
  exact ⟨m', h⟩

end Model

end LPRounding
