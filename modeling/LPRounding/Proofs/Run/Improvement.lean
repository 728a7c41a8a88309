import LPRounding.Proofs.Run.Final
import LPRounding.Proofs.Run.Order

/-!
Rounding without loss. A column that is fixed at its value leaves the last point in the model, and
so does a row that is relaxed; the next solve of a faithful solver then finds a point, and one that
is no worse.
-/

namespace LPRounding

set_option linter.unusedSectionVars false

variable {K : Type} [Field K] [LinearOrder K] [IsStrictOrderedRing K] [FloorRing K]

/-- The objective `y` is at least as good as `x`. -/
def Direction.NoWorse : Direction → K → K → Prop
  | .minimize, x, y => y ≤ x
  | .maximize, x, y => x ≤ y

theorem Direction.NoWorse.refl (d : Direction) (x : K) : d.NoWorse x x := by
  cases d <;> exact le_rfl

theorem Direction.NoWorse.trans {d : Direction} {x y z : K} (h : d.NoWorse x y)
    (h' : d.NoWorse y z) : d.NoWorse x z := by
  cases d
  · exact le_trans h' h
  · exact le_trans h h'

namespace Model

variable {m m' m'' : Model K} {j : Nat}

theorem noWorse_iff {x y : K} : m.direction.NoWorse x y ↔ m.signed y ≤ m.signed x := by
  unfold signed
  cases m.direction <;> simp [Direction.NoWorse]

theorem Grown.costOf (h : m.Grown m') (x : List K) : m'.costOf x = m.costOf x := by
  have hzip (cs : List (Column K)) : List.zipWith (fun c y => c.cost * y) cs x =
      List.zipWith (fun c y => c.1 * y) (cs.map fun c => (c.cost, c.bound)) x := by
    rw [List.zipWith_map_left]
  rw [Model.costOf, Model.costOf, hzip, hzip, h.columns]

theorem objective_eq_ok {x : K} :
    m.objective = .ok x ↔ ∃ s, m.solution = some s ∧ s.objective = x := by
  unfold objective lastSolution
  cases m.solution with
  | none => simp [bind, Except.bind]
  | some s => simp [bind, Except.bind, pure, Except.pure]

theorem Priced.fix {v : K} (h : m.Priced) (hv : m.columnValue j = .ok v)
    (hf : Returns (fixColumn j v) m () m') : m'.Priced ∧ m'.solution = m.solution := by
  obtain ⟨s, hs, ha, hcost⟩ := h
  obtain ⟨-, s', hs', hx⟩ := columnValue_eq_ok.mp hv
  obtain rfl := Option.some.inj (hs.symm.trans hs')
  obtain ⟨c, hc, -, rfl⟩ := returns_fixColumn.mp hf
  exact ⟨⟨s, hs, ha.fix hx, hcost.trans (((Grown.refl m).fix hc).costOf _).symm⟩, rfl⟩

theorem Priced.relax (h : m.Priced) (hr : Returns (relaxRow j) m () m') :
    m'.Priced ∧ m'.solution = m.solution := by
  obtain ⟨s, hs, ha, hcost⟩ := h
  obtain ⟨r, -, -, rfl⟩ := returns_relaxRow.mp hr
  exact ⟨⟨s, hs, ha.relax r, hcost⟩, rfl⟩

def Improved (m m' : Model K) : Prop :=
  ∃ x y, m.objective = .ok x ∧ m'.objective = .ok y ∧ m.direction.NoWorse x y

theorem Priced.improved (h : m.Priced) (hs : m'.solution = m.solution) : m.Improved m' := by
  obtain ⟨s, hsol, -⟩ := h
  exact ⟨_, _, objective_eq_ok.mpr ⟨s, hsol, rfl⟩,
    objective_eq_ok.mpr ⟨s, hs.trans hsol, rfl⟩, .refl _ _⟩

theorem Improved.trans (h : m.Improved m') (h' : m'.Improved m'')
    (hd : m'.direction = m.direction) : m.Improved m'' := by
  obtain ⟨x, y, hx, hy, hle⟩ := h
  obtain ⟨y', z, hy', hz, hle'⟩ := h'
  obtain rfl := Except.ok.inj (hy.symm.trans hy')
  exact ⟨x, z, hx, hz, hle.trans (hd ▸ hle')⟩

theorem Priced.solve {solver : Solver K} (hsolver : solver.Faithful) (h : m.Priced)
    (hr : Returns (Model.solve solver) m .optimal m') : m'.Priced ∧ m.Improved m' := by
  obtain ⟨s, hs, ha, hcost⟩ := h
  obtain ⟨s', rfl, ha', hcost', hleast⟩ := cheapest_of_solve hsolver hr
  refine ⟨⟨s', rfl, ⟨ha'.length, ha'.columns, ha'.rows⟩, hcost'⟩, s.objective, s'.objective,
    objective_eq_ok.mpr ⟨s, hs, rfl⟩, objective_eq_ok.mpr ⟨s', rfl, rfl⟩, ?_⟩
  rw [noWorse_iff, hcost]
  exact hleast _ ha

end Model

variable {P : Type} [Roundable P K]

namespace Engine

variable {p : Policies P K} {rule : Nat → Action P K (Option K)} {s t : Run P K}
  {a b : Stage K × Run P K}

def Stage.Alive : Stage K → Prop
  | .begun => False
  | .solved _ st => st = .optimal
  | .ended out => out.status = .optimal
  | _ => True

theorem Step.ne_begun (h : Step p rule a b) : b.1 ≠ .begun := by
  cases h <;> exact nofun

theorem Step.alive (h : Step p rule a b) (hb : b.1.Alive) : a.1 = .begun ∨ a.1.Alive := by
  cases h with
  | solve => exact .inl rfl
  | enter | finish => exact .inr rfl
  | skip | fix | idle | busy | leave | relax | limit | out | resolve => exact .inr trivial
  | lose _ h =>
    obtain ⟨_, _, -, h⟩ := returns_bind.mp h
    have hlost : _ = Status.infeasible := returns_giveUp h
    cases hlost.symm.trans hb

theorem Walk.alive (h : Walk p rule a b) (hb : b.1.Alive) : a.1 = .begun ∨ a.1.Alive := by
  induction h using Relation.ReflTransGen.head_induction_on with
  | refl => exact .inr hb
  | head hstep _ ih => exact hstep.alive (ih.resolve_left hstep.ne_begun)

theorem Reached.first_solve {stage : Stage K} (h : Reached p rule s stage t)
    (hstage : stage.Alive) : ∃ u, Returns (Engine.solve p) s .optimal u ∧
      Walk p rule (.solved true .optimal, u) (stage, t) := by
  rcases Relation.ReflTransGen.cases_head h with h | ⟨_, hstep, hwalk⟩
  · cases h
    exact absurd hstage id
  cases hstep with
  | solve h =>
    obtain rfl := (Walk.alive hwalk hstage).resolve_left nofun
    exact ⟨_, h, hwalk⟩

variable [Backend K]

/-- Plain solves, policies that leave the model to the engine, and every column that is fixed is
fixed at the value that it has. -/
structure Exact (p : Policies P K) (s : Run P K) : Prop where
  restrained : p.Restrained
  solve : p.solve = Action.solveModel
  resolve : p.resolve = Action.solveModel
  fixes : ∀ {n j r : Nat} {rest : List Nat} {t u : Run P K} {v : K},
    Reached p p.ask s (.rounding n (j :: rest) r) t → Returns (p.ask j) t (some v) u →
    t.lp.columnValue j = .ok v

namespace Exact

theorem step (hp : Exact p s) (hsolver : (Backend.solver : Solver K).Faithful)
    (hreach : Walk p p.ask (.begun, s) a) (ha : a.1.Alive) (hpriced : a.2.lp.Priced)
    (h : Step p p.ask a b) (hb : b.1.Alive) : b.2.lp.Priced ∧ a.2.lp.Improved b.2.lp := by
  have still {u v : Run P K} (hu : u.lp.Priced) (hlp : v.lp = u.lp) :
      v.lp.Priced ∧ u.lp.Improved v.lp :=
    ⟨hlp ▸ hu, hu.improved (congrArg Model.solution hlp)⟩
  have edited {m m' : Model K} (hm : m.Priced) (hm' : m'.Priced ∧ m'.solution = m.solution) :
      m'.Priced ∧ m.Improved m' := ⟨hm'.1, hm.improved hm'.2⟩
  cases h.move hp.restrained with
  | solve => exact absurd ha id
  | resolve =>
    obtain rfl : _ = Status.optimal := hb
    exact hpriced.solve hsolver (h.solves hp.solve hp.resolve)
  | fix hv hf => exact edited hpriced (hpriced.fix (hp.fixes hreach hv) hf)
  | relax _ _ hr => exact edited hpriced (hpriced.relax hr)
  | enter _ hlp => exact still hpriced hlp
  | skip _ hs | leave _ hs | ended hs => exact still hpriced hs.1
  | idle | busy | pass => exact still hpriced rfl

/-- Along a walk from a point the points never get worse. -/
theorem walk (hp : Exact p s) (hsolver : (Backend.solver : Solver K).Faithful)
    (h : Walk p p.ask a b) (hb : b.1.Alive) (hreach : Walk p p.ask (.begun, s) a)
    (ha : a.1.Alive) (hpriced : a.2.lp.Priced) :
    b.2.lp.Priced ∧ a.2.lp.Improved b.2.lp := by
  induction h using Relation.ReflTransGen.head_induction_on with
  | refl => exact ⟨hpriced, hpriced.improved rfl⟩
  | @head a c hstep hwalk ih =>
    have hc : c.1.Alive := (Walk.alive hwalk hb).resolve_left hstep.ne_begun
    obtain ⟨hc', himproved⟩ := hp.step hsolver hreach ha hpriced hstep hc
    obtain ⟨hb', himproved'⟩ := ih (hreach.tail hstep) hc hc'
    exact ⟨hb', himproved.trans himproved' (hstep.move hp.restrained).later.direction⟩

theorem priced (hp : Exact p s) (hsolver : (Backend.solver : Solver K).Faithful)
    {stage : Stage K} (h : Reached p p.ask s stage t) (hstage : stage.Alive) : t.lp.Priced := by
  obtain ⟨u, hu, hwalk⟩ := h.first_solve hstage
  have hfirst : Step p p.ask (.begun, s) (.solved true .optimal, u) := .solve hu
  have hpriced := Model.priced_of_solve hsolver.truthful (hfirst.solves hp.solve hp.resolve)
  exact (hp.walk hsolver hwalk hstage (.single hfirst) rfl hpriced).1

theorem not_lost (hp : Exact p s) (hsolver : (Backend.solver : Solver K).Faithful) :
    ¬ Reached p p.ask s (.solved false .infeasible) t := by
  intro h
  rcases Relation.ReflTransGen.cases_tail h with h | ⟨_, hwalk, hstep⟩
  · cases h
  have hempty := Model.empty_of_solve hsolver (hstep.solves hp.solve hp.resolve)
  cases hstep with
  | resolve =>
    obtain ⟨sol, -, hadmits, -⟩ := hp.priced hsolver hwalk trivial
    exact hempty _ hadmits

theorem improved (hp : Exact p s) (hsolver : (Backend.solver : Solver K).Faithful)
    {stage stage' : Stage K} {u : Run P K} (h : Reached p p.ask s stage t)
    (hstage : stage.Alive) (hwalk : Walk p p.ask (stage, t) (stage', u))
    (hstage' : stage'.Alive) :
    ∃ x y, t.lp.objective = .ok x ∧ u.lp.objective = .ok y ∧ s.lp.direction.NoWorse x y := by
  have hdirection : t.lp.direction = s.lp.direction := (Walk.later hp.restrained h).direction
  obtain ⟨-, x, y, hx, hy, hle⟩ :=
    hp.walk hsolver hwalk hstage' h hstage (hp.priced hsolver h hstage)
  exact ⟨x, y, hx, hy, hdirection ▸ hle⟩

theorem returned (hp : Exact p s) (hsolver : (Backend.solver : Solver K).Faithful)
    {out : Outcome K} (h : Returns (run p) s out t) (ho : out.status = .optimal) :
    ∃ u x y, Returns (Engine.solve p) s .optimal u ∧
      Returns (Model.solve Backend.solver) s.lp .optimal u.lp ∧ u.lp.objective = .ok x ∧
      out.objective = some y ∧ s.lp.direction.NoWorse x y := by
  have hreach := reached_of_returns h
  obtain ⟨u, hu, hwalk⟩ := hreach.first_solve ho
  obtain ⟨x, y, hx, hy, hle⟩ := hp.improved hsolver (.single (.solve hu)) rfl hwalk ho
  obtain ⟨_, _, v, -, -, hfinish⟩ := hreach.last_point ho
  obtain ⟨y', hout, hy'⟩ := objective_of_finish hfinish
  obtain rfl := Except.ok.inj (hy.symm.trans hy')
  have hfirst : Step p p.ask (.begun, s) (.solved true .optimal, u) := .solve hu
  exact ⟨u, x, y, hu, hfirst.solves hp.solve hp.resolve, hx, hout, hle⟩

end Exact

end Engine

end LPRounding
