import LPRounding.Proofs.LP.Prices
import LPRounding.Proofs.Run.Restrained

/-!
The end of a run with an answer. Nothing is fixed, relaxed or added between the last solve and the
end, so the point of that solve consists of the constants of the columns, and the objective that is
reported is what they cost.
-/

namespace LPRounding

set_option linter.unusedSectionVars false

variable {K : Type}

/-- What the solver reports as optimal is a point with what it costs; it need not be a cheapest
one. -/
def Solver.Truthful [Scalar K] (solver : Solver K) : Prop :=
  ∀ s x c, solver s = .optimal x c → s.Feasible x ∧ c = s.objective x

variable [Field K] [LinearOrder K] [IsStrictOrderedRing K] [FloorRing K]

theorem Solver.Faithful.truthful {solver : Solver K} (h : solver.Faithful) : solver.Truthful :=
  fun s x c hx => ⟨(h.cheapest s x c hx).1.1, (h.cheapest s x c hx).2⟩

theorem Solver.trying_truthful (points : List (List K)) : (Solver.trying points).Truthful := by
  intro s x c h
  refine ⟨trying_sound points s x c h, ?_⟩
  unfold trying at h
  split at h
  · obtain ⟨rfl, rfl⟩ := Verdict.optimal.inj h
    rfl
  · cases h

namespace Model

variable {m m' : Model K}

def Priced (m : Model K) : Prop :=
  ∃ s, m.solution = some s ∧ m.Admits s.values ∧ s.objective = m.costOf s.values

theorem priced_of_solve {solver : Solver K} (hs : solver.Truthful)
    (h : Returns (solve solver) m .optimal m') : m'.Priced := by
  obtain ⟨_, rfl, ⟨-, hc, ha, rfl⟩ | ⟨-, -, x, c, hx, rfl⟩ | ⟨hn, -⟩⟩ := returns_solve h
  · have hp := admits_nil hc ha
    exact ⟨_, rfl, ⟨hp.length, hp.columns, hp.rows⟩, by simp [costOf]⟩
  · obtain ⟨hpoint, rfl⟩ := hs _ x c hx
    have hp := feasible_iff_admits.mp hpoint
    exact ⟨_, rfl, ⟨hp.length, hp.columns, hp.rows⟩, by rw [objective_system, signed_signed]; rfl⟩
  · exact absurd rfl hn

def constants (m : Model K) : List K := m.columns.map fun c => c.fixed.getD 0

theorem Admits.eq_constants {x : List K} (h : m.Admits x) (hall : m.activeColumns = []) :
    x = m.constants := by
  refine List.ext_getElem (by simp [constants, h.length]) fun j hj hj' => ?_
  have hlt : j < m.columns.length := h.length ▸ hj
  obtain ⟨v, hv⟩ := fixedAt_of_noActive hall hlt
  rw [h.fixed hv (List.getElem?_eq_getElem hj)]
  rw [fixedAt, List.getElem?_eq_getElem hlt, Option.bind_some] at hv
  simp [constants, hv]

/-- Every column has its constant, the last point consists of these, the rows that are left admit
them, and `objective` is what they cost. -/
structure Final (m : Model K) (objective : Option K) : Prop where
  fixed : m.activeColumns = []
  value : ∀ j < m.columns.length, ∃ v, m.fixedAt j = some v ∧ m.columnValue j = .ok v
  rows : ∀ r ∈ m.rows, r.relaxed = false → r.bound.Admits (weigh r.coefs m.constants)
  objective : objective = some (m.costOf m.constants)

theorem Priced.final (h : m.Priced) (hall : m.activeColumns = []) {objective : K}
    (ho : m.objective = .ok objective) : m.Final (some objective) := by
  obtain ⟨s, hs, ha, hcost⟩ := h
  have hx := ha.eq_constants hall
  refine ⟨hall, fun j hj => ?_, hx ▸ ha.rows, ?_⟩
  · obtain ⟨v, hv⟩ := fixedAt_of_noActive hall hj
    have hget := List.getElem?_eq_getElem (ha.length.symm ▸ hj)
    refine ⟨v, hv, columnValue_eq_ok.mpr ⟨hj, s, hs, ?_⟩⟩
    rw [hget, ha.fixed hv hget]
  · obtain rfl : s.objective = objective := by simpa [Model.objective, lastSolution, hs] using ho
    rw [hcost, hx]

end Model

variable {P : Type} [Roundable P K]

namespace Engine

variable {p : Policies P K} {rule : Nat → Action P K (Option K)} {s t : Run P K}

theorem Reached.last_solve {first : Bool} {st : Status}
    (h : Reached p rule s (.solved first st) t) :
    ∃ u v, (Returns p.solve u st v ∨ Returns p.resolve u st v) ∧ v.Agree t := by
  rcases Relation.ReflTransGen.cases_tail h with h | ⟨_, -, hstep⟩
  · cases h
  cases hstep with
  | solve h =>
    obtain ⟨v, hv, ha⟩ := returns_solve h
    exact ⟨_, v, .inl hv, ha⟩
  | resolve _ h =>
    obtain ⟨v, hv, ha⟩ := returns_settle h
    exact ⟨_, v, .inr hv, ha⟩

theorem Reached.last_point {out : Outcome K} (h : Reached p rule s (.ended out) t)
    (ho : out.status = .optimal) :
    ∃ first u v, Reached p rule s (.solved first .optimal) u ∧ Returns p.stop u true v ∧
      Returns (finish p) v out t := by
  rcases Relation.ReflTransGen.cases_tail h with h | ⟨_, hwalk, hstep⟩
  · cases h
  cases hstep with
  | finish hb h => exact ⟨_, _, _, hwalk, hb, h⟩
  | lose _ h =>
    obtain ⟨_, _, -, h⟩ := returns_bind.mp h
    simp [returns_giveUp h] at ho

theorem objective_of_finish {out : Outcome K} (h : Returns (finish p) s out t) :
    ∃ o, out.objective = some o ∧ t.lp.objective = .ok o := by
  simp only [finish, returns_bind, returns_pure, returns_lift, returns_get,
    Action.returns_model, Action.returns_note] at h
  obtain ⟨_, u, -, _, _, ⟨rfl, rfl⟩, o, _, ⟨ho, rfl⟩, _, _, ⟨rfl, rfl⟩, _, _, rfl, rfl, rfl⟩ := h
  exact ⟨o, rfl, ho⟩

end Engine

variable [Backend K]

/-- The policies solve plainly or with row generation, they stop once every column is fixed, and to
hand over the solution they only read the model. -/
structure Policies.Standard (p : Policies P K) : Prop where
  solve : ∃ rule : SolveRule, p.solve = rule.apply
  resolve : ∃ rule : SolveRule, p.resolve = rule.apply
  stop : p.stop = StopRule.allFixed.apply
  setSolution : ∀ {s t}, Returns p.setSolution s () t → t.lp = s.lp

variable {s t : Run P K}

section Solves

variable {good : Model K → Prop}

theorem SolveRule.establishes
    (hgood : ∀ {m m'}, Returns (Model.solve Backend.solver) m .optimal m' → good m')
    (hfeasible : ∀ {s t : Run P K} {b}, Returns Roundable.feasible s b t → t.lp = s.lp)
    (rule : SolveRule) (h : Returns rule.apply s .optimal t) : good t.lp := by
  cases rule with
  | plain => exact hgood (Action.returns_solveModel h).2
  | generating =>
    have hsolve {s t : Run P K} {st : Status} (h : Returns Action.solveModel s st t)
        (hst : st = .optimal) : good t.lp := hgood (Action.returns_solveModel (hst ▸ h)).2
    obtain ⟨u, hu, hend⟩ := exists_of_generating (motive := fun st u => st = .optimal → good u.lp)
      hsolve (fun _ _ _ => hsolve) h
    rcases hend with ⟨-, hb⟩ | ⟨hn, -⟩
    · exact hfeasible hb ▸ hu rfl
    · exact absurd rfl hn

theorem Engine.Reached.establishes {p : Policies P K} {rule : Nat → Action P K (Option K)}
    (hgood : ∀ {m m'}, Returns (Model.solve Backend.solver) m .optimal m' → good m')
    (hfeasible : ∀ {s t : Run P K} {b}, Returns Roundable.feasible s b t → t.lp = s.lp)
    (hp : p.Standard) {first : Bool} (h : Reached p rule s (.solved first .optimal) t) :
    good t.lp := by
  obtain ⟨u, v, hv, ha⟩ := h.last_solve
  obtain ⟨r, hr⟩ := hp.solve
  obtain ⟨r', hr'⟩ := hp.resolve
  rw [hr, hr'] at hv
  rw [ha.2]
  exact hv.elim (r.establishes hgood hfeasible) (r'.establishes hgood hfeasible)

end Solves

namespace Engine

variable {p : Policies P K}

/-- What is reported is what the constants cost, and these meet all rows that are left. -/
theorem final_of_run (hsolver : (Backend.solver : Solver K).Truthful)
    (hfeasible : ∀ {s t : Run P K} {b}, Returns Roundable.feasible s b t → t.lp = s.lp)
    (hp : p.Standard) {out : Outcome K} (h : Returns (run p) s out t)
    (ho : out.status = .optimal) : t.lp.Final out.objective := by
  obtain ⟨first, u, v, hu, hb, hv⟩ := (reached_of_returns h).last_point ho
  rw [hp.stop] at hb
  obtain ⟨rfl, hall⟩ := returns_allFixed hb
  obtain ⟨w, hw, ha⟩ := returns_finish hv
  obtain ⟨o, hout, hobj⟩ := objective_of_finish hv
  have hlp : t.lp = u.lp := ha.2.trans (hp.setSolution hw)
  rw [hout]
  refine Model.Priced.final ?_ ?_ hobj
  · exact hlp ▸ hu.establishes (Model.priced_of_solve hsolver) hfeasible hp
  · exact hlp ▸ hall rfl

end Engine

end LPRounding
