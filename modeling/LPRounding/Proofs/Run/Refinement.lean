import LPRounding.Proofs.LP.Prices
import LPRounding.Proofs.Run.Separation

/-!
Row generation as a refinement. A call adds rows of one family to a model and nothing else, so each
of its points keeps to a part of the family; what it says of a model without a point, and of a point
that costs least, is true of the model with the whole family.
-/

namespace LPRounding

set_option linter.unusedSectionVars false

variable {P K S C N : Type} [Field K] [LinearOrder K] [IsStrictOrderedRing K] [FloorRing K]

namespace Model

structure Meets (m : Model K) (family : Set (Row K)) (x : List K) : Prop where
  admits : m.Admits x
  rows : ∀ r ∈ family, r.bound.Admits (weigh r.coefs x)

/-- The second model has more rows of a family, and its own last point. -/
def Extended (family : Set (Row K)) (m m' : Model K) : Prop :=
  ∃ rows solution, (∀ r ∈ rows, r ∈ family) ∧
    m' = { m with rows := m.rows ++ rows, solution := solution }

variable {family : Set (Row K)} {m m' m'' : Model K} {x : List K}

theorem Extended.refl (family : Set (Row K)) (m : Model K) : Extended family m m :=
  ⟨[], m.solution, by simp, by simp⟩

theorem Extended.trans (h : Extended family m m') (h' : Extended family m' m'') :
    Extended family m m'' := by
  obtain ⟨rows, s, hr, rfl⟩ := h
  obtain ⟨rows', s', hr', rfl⟩ := h'
  refine ⟨rows ++ rows', s', fun r hmem => ?_, by simp⟩
  exact (List.mem_append.mp hmem).elim (hr r) (hr' r)

theorem Extended.solution (family : Set (Row K)) (m : Model K) (s : Option (Solution K)) :
    Extended family m { m with solution := s } :=
  ⟨[], s, by simp, by simp⟩

theorem Extended.append {r : Row K} (hr : r ∈ family) :
    Extended family m { m with rows := m.rows ++ [r] } :=
  ⟨[r], m.solution, by simpa using hr, rfl⟩

theorem Extended.admits (h : Extended family m m') (hx : m'.Admits x) : m.Admits x := by
  obtain ⟨rows, s, -, rfl⟩ := h
  exact ⟨hx.length, hx.columns, fun r hr => hx.rows r (List.mem_append_left _ hr)⟩

theorem Extended.admits_of_meets (h : Extended family m m') (hx : m.Meets family x) :
    m'.Admits x := by
  obtain ⟨rows, s, hr, rfl⟩ := h
  refine ⟨hx.admits.length, hx.admits.columns, fun r hmem hk => ?_⟩
  rcases List.mem_append.mp hmem with hmem | hmem
  · exact hx.admits.rows r hmem hk
  · exact hx.rows r (hr r hmem)

theorem Extended.costOf_eq (h : Extended family m m') (x : List K) : m'.costOf x = m.costOf x := by
  obtain ⟨rows, s, -, rfl⟩ := h
  rfl

theorem Extended.signed_eq (h : Extended family m m') (a : K) : m'.signed a = m.signed a := by
  obtain ⟨rows, s, -, rfl⟩ := h
  rfl

def Optimum (m : Model K) (family : Set (Row K)) (a : K) : Prop :=
  ∃ x, m.Meets family x ∧ m.costOf x = a ∧
    ∀ y, m.Meets family y → m.signed a ≤ m.signed (m.costOf y)

/-- What a solve of a model with some rows of a family says of the model with all of them: with
these it has no point either, or none of its points costs less than the point found, which is the
best of them if it is one of them. -/
structure Tells (family : Set (Row K)) (m : Model K) (st : Status) (m' : Model K) : Prop where
  infeasible : st = .infeasible → ∀ x, ¬ m.Meets family x
  optimal : st = .optimal → ∃ sol, m'.solution = some sol ∧ m'.Admits sol.values ∧
    sol.objective = m.costOf sol.values ∧
    (∀ x, m.Meets family x → m.signed sol.objective ≤ m.signed (m.costOf x)) ∧
    ((∀ r ∈ family, r.bound.Admits (weigh r.coefs sol.values)) → m.Optimum family sol.objective)

theorem Extended.solve {solver : Solver K} (hsolver : solver.Faithful) {st : Status}
    (h : Extended family m m') (hr : Returns (solve solver) m' st m'') :
    Extended family m m'' ∧ Tells family m st m'' := by
  obtain ⟨sol, hsol, -⟩ := returns_solve hr
  refine ⟨hsol ▸ h.trans (.solution family m' sol), fun hst x hx => ?_, fun hst => ?_⟩
  · subst hst
    exact empty_of_solve hsolver hr x (h.admits_of_meets hx)
  · subst hst
    obtain ⟨sol, rfl, hpoint, hcost, hleast⟩ := cheapest_of_solve hsolver hr
    have hcost : sol.objective = m.costOf sol.values := hcost.trans (h.costOf_eq _)
    have hleast (x : List K) (hx : m.Meets family x) :
        m.signed sol.objective ≤ m.signed (m.costOf x) := by
      rw [← h.signed_eq, ← h.signed_eq, ← h.costOf_eq]
      exact hleast x (h.admits_of_meets hx)
    refine ⟨sol, rfl, ⟨hpoint.length, hpoint.columns, hpoint.rows⟩, hcost, hleast, fun hr => ?_⟩
    exact ⟨sol.values, ⟨h.admits hpoint, hr⟩, hcost.symm, hleast⟩

end Model

namespace Search

variable {tol : Tolerance K} {check : C → Except (Fault K) (Violation K C)} {cs : List C}
  {s : Search K C} {v : Violation K C}

theorem violated_of_scan (h : scan tol check cs = .ok s) (hv : s.found = some v) :
    violated tol v = true := by
  induction cs generalizing s with
  | nil =>
    obtain rfl := Except.ok.inj h
    cases hv
  | cons c rest ih =>
    simp only [scan, ok_bind_iff] at h
    obtain ⟨w, -, h⟩ := h
    split at h
    · next hw =>
      obtain rfl := Except.ok.inj h
      exact Option.some.inj hv ▸ hw
    · obtain ⟨s', hs', h⟩ := ok_bind_iff.mp h
      obtain rfl := Except.ok.inj h
      exact ih hs' hv

theorem violated_of_worst (h : worst tol check cs = .ok s) (hv : s.found = some v) :
    violated tol v = true := by
  obtain ⟨vs, -, h⟩ := ok_bind_iff.mp h
  obtain rfl := Except.ok.inj h
  exact (Option.filter_eq_some_iff.mp hv).2

end Search

namespace Oracle

variable [Dice S K]

theorem violated_of_search {tol : Tolerance K} {check : C → Except (Fault K) (Violation K C)}
    {cs : List C} {o o' : Oracle K S C N} {s : Search K C} {v : Violation K C}
    (h : Returns (search tol check cs) o s o') (hv : s.found = some v) :
    Search.violated tol v = true := by
  simp only [search, returns_bind, returns_get] at h
  obtain ⟨_, _, ⟨rfl, rfl⟩, h⟩ := h
  split at h
  · exact Search.violated_of_scan (returns_lift.mp h).1 hv
  · exact Search.violated_of_worst (returns_lift.mp h).1 hv
  · simp only [returns_bind, returns_get, returns_modify, returns_lift] at h
    obtain ⟨_, _, ⟨rfl, rfl⟩, _, _, -, h, -⟩ := h
    exact Search.violated_of_scan h hv

/-- A violation that a search at the point of the model reports. -/
def Reports (k : Checker P K C N) (tol : Tolerance K) (p : P) (m : Model K) (v : Violation K C) :
    Prop :=
  Finds k p m v ∧ tol.epsilon < v.magnitude

theorem reports_of_examine {k : Checker P K C N} {tol : Tolerance K} {p : P} {m : Model K}
    {o o' : Oracle K S C N} {s : Search K C} {v : Violation K C}
    (h : Returns (examine k tol p m) o s o') (hv : s.found = some v) : Reports k tol p m v := by
  refine ⟨(finds_of_examine h).2 v hv, ?_⟩
  simp only [examine, returns_bind, returns_lift, returns_modify] at h
  obtain ⟨⟨n, cs⟩, _, -, _, _, -, h⟩ := h
  split at h
  · simp only [returns_bind, returns_pure, returns_modify] at h
    obtain ⟨_, _, ⟨rfl, -⟩, _, _, -, rfl, -⟩ := h
    cases hv
  · simp only [returns_bind, returns_pure, returns_modify] at h
    obtain ⟨s', _, hs, _, _, -, rfl, -⟩ := h
    have := violated_of_search hs hv
    rwa [Search.violated, Tolerance.above_iff, zero_add] at this

variable {h : Home P K S C N} {k : Checker P K C N} {tolerance : P → Tolerance K} {s t u : Run P K}

theorem exists_reported (hr : Returns (feasible h k tolerance) s false t) :
    t.lp = s.lp ∧ ∃ o v, t.problem = h.set s.problem o ∧ o.violation = some v ∧
      Reports k (tolerance s.problem) s.problem s.lp v := by
  simp only [feasible, returns_bind, Action.returns_model, Action.returns_onProblem,
    returns_pure] at hr
  obtain ⟨_, _, ⟨rfl, rfl⟩, found, _, ⟨q, hq, rfl⟩, hb, rfl⟩ := hr
  obtain ⟨o, ho, rfl⟩ := returns_home hq
  obtain ⟨v, hv⟩ := Option.isSome_iff_exists.mp (Option.isNone_eq_false_iff.mp hb)
  exact ⟨rfl, o, v, rfl, ((finds_of_examine ho).1).trans hv, reports_of_examine ho hv⟩

/-- A check that does not accept the point, and the row that is then added: it is the row of a
violation at that point. -/
theorem exists_added (hget : ∀ q o, h.get (h.set q o) = o)
    (hset : ∀ q o o', h.set (h.set q o) o' = h.set q o')
    (hrow : ∀ q o v, k.row (h.set q o) v = k.row q v) {i : Nat}
    (hf : Returns (feasible h k tolerance) s false t) (hs : Returns (separate h k) t i u) :
    ∃ v, Reports k (tolerance s.problem) s.problem s.lp v ∧
      (∃ o, u.problem = h.set s.problem o) ∧
      u.lp = { s.lp with rows := s.lp.rows ++ [k.row s.problem v] } := by
  obtain ⟨hm, o, v, ho, hv, hrep⟩ := exists_reported hf
  obtain ⟨⟨o', ho'⟩, v', hv', hm'⟩ := returns_separate hs
  rw [ho, hget] at hv'
  obtain rfl := Option.some.inj (hv.symm.trans hv')
  exact ⟨v, hrep, ⟨o', by rw [ho', ho, hset]⟩, by rw [hm', ho, hrow, hm]⟩

/-- What a call that ended with `st` has made of a run, and what it says of the model with the whole
family. -/
structure Refines [Roundable P K] (h : Home P K S C N) (family : P → Set (Row K)) (s : Run P K)
    (st : Status) (t : Run P K) : Prop where
  problem : ∃ o, t.problem = h.set s.problem o
  model : s.lp.Extended (family s.problem) t.lp
  tells : s.lp.Tells (family s.problem) st t.lp
  accepted : st = .optimal → ∃ u, Returns Roundable.feasible u true t ∧ u.lp = t.lp

/-- Single steps of row generation for a family that does not depend on the oracle. -/
structure Generates [Backend K] [Roundable P K] (h : Home P K S C N) (k : Checker P K C N)
    (tolerance : P → Tolerance K) (family : P → Set (Row K)) (sane : P → Prop) : Prop where
  feasible : (Roundable.feasible : Action P K Bool) = Oracle.feasible h k tolerance
  separate : (Roundable.separate : Action P K Nat) = Oracle.separate h k
  member : ∀ {q m v}, sane q → Reports k (tolerance q) q m v → k.row q v ∈ family q
  sane_set : ∀ q o, sane (h.set q o) ↔ sane q
  family_set : ∀ q o, family (h.set q o) = family q
  row_set : ∀ q o v, k.row (h.set q o) v = k.row q v
  get_set : ∀ q o, h.get (h.set q o) = o
  set_get : ∀ q, h.set q (h.get q) = q
  set_set : ∀ q o o', h.set (h.set q o) o' = h.set q o'

section Calls

variable [Backend K] [Roundable P K] {family : P → Set (Row K)} {sane : P → Prop}

structure Grows (h : Home P K S C N) (family : P → Set (Row K)) (s t : Run P K) : Prop where
  problem : ∃ o, t.problem = h.set s.problem o
  model : s.lp.Extended (family s.problem) t.lp

theorem Grows.solveModel (hg : Grows h family s t) {st : Status}
    (hr : Returns Action.solveModel t st u) : Grows h family s u := by
  obtain ⟨hq, hm⟩ := Action.returns_solveModel hr
  obtain ⟨sol, hsol, -⟩ := Model.returns_solve hm
  exact ⟨hq ▸ hg.problem, hsol ▸ hg.model.trans (.solution _ _ sol)⟩

theorem Grows.tells (hg : Grows h family s t) (hsolver : (Backend.solver : Solver K).Faithful)
    {st : Status} (hr : Returns Action.solveModel t st u) :
    s.lp.Tells (family s.problem) st u.lp :=
  (hg.model.solve hsolver (Action.returns_solveModel hr).2).2

theorem Grows.accept (w : Generates h k tolerance family sane) (hg : Grows h family s t)
    (hf : Returns Roundable.feasible t true u) : Grows h family s u := by
  obtain ⟨o, ho⟩ := hg.problem
  obtain ⟨hm, ⟨o', ho', -⟩, -⟩ := returns_feasible (w.feasible ▸ hf)
  exact ⟨⟨o', by rw [ho', ho, w.set_set]⟩, hm ▸ hg.model⟩

theorem Grows.extend (w : Generates h k tolerance family sane) (hsane : sane s.problem)
    (hg : Grows h family s t) (hf : Returns Roundable.feasible t false u) {v : Run P K} {i : Nat}
    (hr : Returns Roundable.separate u i v) : Grows h family s v := by
  rw [w.feasible] at hf
  rw [w.separate] at hr
  obtain ⟨o, ho⟩ := hg.problem
  obtain ⟨viol, hrep, ⟨o', ho'⟩, hm⟩ := exists_added w.get_set w.set_set w.row_set hf hr
  have hmem : k.row t.problem viol ∈ family s.problem := by
    have := w.member (ho ▸ (w.sane_set _ _).mpr hsane) hrep
    rwa [ho, w.family_set, ← ho] at this
  exact ⟨⟨o', by rw [ho', ho, w.set_set]⟩, hm ▸ hg.model.trans (.append hmem)⟩

theorem Generates.start (w : Generates h k tolerance family sane) (s : Run P K) :
    Grows h family s s := ⟨⟨h.get s.problem, (w.set_get _).symm⟩, .refl _ _⟩

theorem Generates.grows (w : Generates h k tolerance family sane) (hsane : sane s.problem)
    {st : Status} (hr : Returns SolveRule.generating.apply s st t) : Grows h family s t := by
  obtain ⟨u, hu, hend⟩ := exists_of_generating (motive := fun _ u => Grows h family s u)
    (w.start s).solveModel (fun ht hf hs => (ht.extend w hsane hf hs).solveModel) hr
  rcases hend with ⟨-, hb⟩ | ⟨-, rfl⟩
  · exact hu.accept w hb
  · exact ⟨hu.problem, hu.model⟩

theorem Generates.refines (w : Generates h k tolerance family sane)
    (hsolver : (Backend.solver : Solver K).Faithful) (hsane : sane s.problem) {st : Status}
    (hr : Returns SolveRule.generating.apply s st t) : Refines h family s st t := by
  have hsolve {t u : Run P K} {st : Status} (hg : Grows h family s t)
      (hr : Returns Action.solveModel t st u) :
      Grows h family s u ∧ s.lp.Tells (family s.problem) st u.lp :=
    ⟨hg.solveModel hr, hg.tells hsolver hr⟩
  obtain ⟨u, ⟨hg, ht⟩, hend⟩ := exists_of_generating
    (motive := fun st u => Grows h family s u ∧ s.lp.Tells (family s.problem) st u.lp)
    (hsolve (w.start s)) (fun ht hf hs => hsolve (ht.1.extend w hsane hf hs)) hr
  rcases hend with ⟨-, hb⟩ | ⟨hn, rfl⟩
  · have hlp := (returns_feasible (w.feasible ▸ hb)).1
    obtain ⟨hproblem, hmodel⟩ := hg.accept w hb
    exact ⟨hproblem, hmodel, hlp ▸ ht, fun _ => ⟨u, hb, hlp.symm⟩⟩
  · exact ⟨hg.problem, hg.model, ht, fun hst => absurd hst hn⟩

end Calls

end Oracle

end LPRounding
