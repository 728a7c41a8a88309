import LPRounding.Proofs.Run.Provenance
import LPRounding.Proofs.Run.Billing
import LPRounding.Proofs.LP.Selection

/-!
What a run pays, against a competitor. A point that meets a whole family of rows takes part in every
solve, and a column that is fixed changes it there alone. Where a share of each constant is paid by
what its column cost at the point, that share of all constants together never costs more than the
competitor, whatever rows are added or relaxed on the way.
-/

namespace LPRounding

set_option linter.unusedSectionVars false

variable {K : Type} [Field K] [LinearOrder K] [IsStrictOrderedRing K] [FloorRing K]

theorem le_twice {ε c budget : K} (hε : ε < 1 / 2) (h : (1 / 2 - ε) * c ≤ budget) :
    c ≤ 2 / (1 - 2 * ε) * budget := by
  have hpos : 0 < 1 - 2 * ε := by linarith
  rw [div_mul_eq_mul_div, le_div_iff₀ hpos]
  linarith

namespace Model

variable {m m' : Model K} {family : Set (Row K)} {share budget : K} {x z : List K} {j : Nat} {v : K}

theorem costOf_set (hj : j < m.columns.length) (hx : j < x.length) (v : K) :
    m.costOf (x.set j v) = m.costOf x + m.costAt j * (v - x.getD j 0) := by
  have hzip : List.zipWith (fun c y => c.cost * y) m.columns (x.set j v) =
      (List.zipWith (fun c y => c.cost * y) m.columns x).set j (m.costAt j * v) := by
    apply List.ext_getElem
    · simp
    · intro i hi hi'
      by_cases hij : j = i
      · subst hij
        simp [costAt, hj]
      · simp [hij]
  have hlt : j < (List.zipWith (fun c y => c.cost * y) m.columns x).length := by simp [hj, hx]
  have hat : (List.zipWith (fun c y => c.cost * y) m.columns x)[j] = m.costAt j * x.getD j 0 := by
    simp [costAt, hj, hx]
  rw [costOf, costOf, hzip, List.sum_set', dif_pos hlt, hat]
  ring

theorem open_of_fix (h : Returns (fixColumn j v) m () m') : m.fixedAt j = none := by
  obtain ⟨c, hc, hnone, -⟩ := returns_fixColumn.mp h
  simp [fixedAt, hc, hnone]

theorem constants_fix (h : Returns (fixColumn j v) m () m') :
    m'.constants = m.constants.set j v := by
  obtain ⟨c, -, -, rfl⟩ := returns_fixColumn.mp h
  simp [constants, List.map_set]

theorem getD_constants (h : m.fixedAt j = none) : m.constants.getD j 0 = 0 := by
  cases hc : m.columns[j]? with
  | none => simp [constants, hc]
  | some c =>
    have hf : c.fixed = none := by simpa [fixedAt, hc] using h
    simp [constants, hc, hf]

theorem Meets.fix (h : m.Meets family z) (hf : Returns (fixColumn j v) m () m')
    (hrows : ∀ r ∈ m.rows, r.relaxed = false → r.bound.Admits (weigh r.coefs (z.set j v)))
    (hfamily : ∀ r ∈ family, r.bound.Admits (weigh r.coefs (z.set j v))) :
    m'.Meets family (z.set j v) := by
  obtain ⟨c, hc, -, rfl⟩ := returns_fixColumn.mp hf
  refine ⟨⟨by simpa using h.admits.length, fun i c' w hc' hw => ?_, hrows⟩, hfamily⟩
  by_cases hij : j = i
  · subst hij
    have hj := (List.getElem?_eq_some_iff.mp hc).1
    rw [List.getElem?_set_self hj] at hc'
    rw [List.getElem?_set_self (h.admits.length ▸ hj)] at hw
    obtain rfl := Option.some.inj hc'
    exact (Option.some.inj hw).symm
  · rw [List.getElem?_set_ne hij] at hc' hw
    exact h.admits.columns i c' w hc' hw

theorem Meets.fix_self (h : m.Meets family z) (hz : z.getD j 0 = v)
    (hf : Returns (fixColumn j v) m () m') : m'.Meets family (z.set j v) := by
  have hset : z.set j v = z := by rw [← hz, set_getD_self]
  refine h.fix hf ?_ ?_
  · rw [hset]
    exact h.admits.rows
  · rw [hset]
    exact h.rows

theorem Meets.relax (h : m.Meets family z) (hr : Returns (relaxRow j) m () m') :
    m'.Meets family z := by
  obtain ⟨r, -, -, rfl⟩ := returns_relaxRow.mp hr
  exact ⟨h.admits.relax r, h.rows⟩

/-- A point with the whole family that the budget pays for, when the constants count by the share
alone. -/
structure Affords (m : Model K) (family : Set (Row K)) (share budget : K) (z : List K) : Prop where
  meets : m.Meets family z
  cost : m.costOf z ≤ budget + (1 - share) * m.costOf m.constants

def Reads (m : Model K) (z : List K) : Prop :=
  ∀ j x, m.fixedAt j = none → m.columnValue j = .ok x → z.getD j 0 = x

theorem affords_of_open (hopen : ∀ c ∈ m.columns, c.fixed = none) (h : m.Meets family z) :
    m.Affords family share (m.costOf z) z := by
  have hnone (j : Nat) : m.fixedAt j = none := by
    cases hc : m.columns[j]? with
    | none => simp [fixedAt, hc]
    | some c => simp [fixedAt, hc, hopen c (List.mem_of_getElem? hc)]
  refine ⟨h, ?_⟩
  rw [costOf_constants]
  simp [hnone]

theorem Affords.replace (h : m.Affords family share budget z) (hc : m'.columns = m.columns)
    (hx : m'.Meets family x) (hle : m.costOf x ≤ m.costOf z) :
    m'.Affords family share budget x := by
  have hcost (y : List K) : m'.costOf y = m.costOf y := by rw [costOf, costOf, hc]
  have hconstants : m'.constants = m.constants := by rw [constants, constants, hc]
  refine ⟨hx, ?_⟩
  rw [hcost, hcost, hconstants]
  exact hle.trans h.cost

theorem Affords.relax (h : m.Affords family share budget z)
    (hr : Returns (relaxRow j) m () m') : m'.Affords family share budget z := by
  have hc : m'.columns = m.columns := by
    obtain ⟨r, -, -, rfl⟩ := returns_relaxRow.mp hr
    rfl
  exact h.replace hc (h.meets.relax hr) le_rfl

theorem Affords.fix (h : m.Affords family share budget z)
    (hf : Returns (fixColumn j v) m () m') (hm : m'.Meets family (z.set j v))
    (hpaid : share * (m.costAt j * v) ≤ m.costAt j * z.getD j 0) :
    m'.Affords family share budget (z.set j v) := by
  have hconstants := constants_fix hf
  have hopen := open_of_fix hf
  obtain ⟨c, hc, -, rfl⟩ := returns_fixColumn.mp hf
  have hgrown := (Grown.refl m).fix (v := v) hc
  have hj := (List.getElem?_eq_some_iff.mp hc).1
  refine ⟨hm, ?_⟩
  rw [hgrown.costOf, hgrown.costOf, hconstants, costOf_set hj (h.meets.admits.length ▸ hj),
    costOf_set hj (by simpa [constants] using hj), getD_constants hopen]
  linarith [h.cost]

theorem Affords.share_le (h : m.Affords family share budget z) (hall : m.activeColumns = []) :
    share * m.costOf m.constants ≤ budget := by
  have hcost := h.cost
  rw [h.meets.admits.eq_constants hall] at hcost
  linarith

theorem Reads.fix (h : m.Reads z) (hf : Returns (fixColumn j v) m () m') :
    m'.Reads (z.set j v) := by
  obtain ⟨c, hc, -, rfl⟩ := returns_fixColumn.mp hf
  intro i x hi hx
  rw [fixedAt_set hc] at hi
  split at hi
  · cases hi
  next hij =>
  have hvalue : m.columnValue i = .ok x := by
    obtain ⟨hlt, hsol⟩ := columnValue_eq_ok.mp hx
    exact columnValue_eq_ok.mpr ⟨by simpa using hlt, hsol⟩
  rw [List.getD_eq_getElem?_getD, List.getElem?_set_ne (Ne.symm hij), ← List.getD_eq_getElem?_getD]
  exact h i x hi hvalue

theorem reads_of_solution {s : Solution K} (hs : m.solution = some s) : m.Reads s.values :=
  fun _ _ _ hx => (eq_getD_of_columnValue hs hx).symm

end Model

variable {P : Type} [Roundable P K]

namespace Engine

variable {p : Policies P K} {s t : Run P K} {family : Set (Row K)} {share budget : K}
  {a b : Stage K × Run P K}

def FindsCheapest (p : Policies P K) (s : Run P K) (family : Set (Row K)) : Prop :=
  ∀ ⦃a : Stage K × Run P K⦄ ⦃first : Bool⦄ ⦃t : Run P K⦄, Walk p p.ask (.begun, s) a →
    Step p p.ask a (.solved first .optimal, t) →
    ∃ sol, t.lp.solution = some sol ∧ t.lp.Meets family sol.values ∧
      ∀ z, a.2.lp.Meets family z → a.2.lp.costOf sol.values ≤ a.2.lp.costOf z

/-- Solves find cheapest points, and where a column is fixed the share of the constant is paid by
the value, and a point with the family that has this value is one with the constant in its place. -/
structure Thrifty (p : Policies P K) (s : Run P K) (family : Set (Row K)) (share : K) : Prop where
  restrained : p.Restrained
  solves : FindsCheapest p s family
  fixes : ∀ {n j r : Nat} {rest : List Nat} {t u : Run P K} {v : K},
    Reached p p.ask s (.rounding n (j :: rest) r) t → Returns (p.ask j) t (some v) u →
    ∃ x, t.lp.columnValue j = .ok x ∧ share * (t.lp.costAt j * v) ≤ t.lp.costAt j * x ∧
      ∀ z m, t.lp.Meets family z → z.getD j 0 = x → Returns (Model.fixColumn j v) t.lp () m →
        m.Meets family (z.set j v)

section Solves

variable [Backend K]

theorem findsCheapest_of_plain (hsolver : (Backend.solver : Solver K).Faithful)
    (hp : p.Restrained) (hsolve : p.solve = Action.solveModel)
    (hresolve : p.resolve = Action.solveModel) (hdirection : s.lp.direction = .minimize) :
    FindsCheapest p s ∅ := by
  intro a first t hwalk hstep
  have hmin : a.2.lp.direction = .minimize := (Walk.later hp hwalk).direction.trans hdirection
  obtain ⟨sol, hlp, hadmits, hcost, hleast⟩ :=
    Model.cheapest_of_solve hsolver (hstep.solves hsolve hresolve)
  refine ⟨sol, by rw [hlp], ⟨?_, by simp⟩, fun z hz => ?_⟩
  · rw [hlp]
    exact ⟨hadmits.length, hadmits.columns, hadmits.rows⟩
  · have := hleast z hz.admits
    rwa [Model.signed, Model.signed, hmin, hcost] at this

/-- Row generation that ends at points with the whole family finds cheapest ones of these, since no
point with the family was cut off. -/
theorem findsCheapest_of_generates {S C N : Type} [Dice S K] {h : Oracle.Home P K S C N}
    {k : Checker P K C N} {tolerance : P → Tolerance K} {rows : P → Set (Row K)} {sane : P → Prop}
    (w : Oracle.Generates h k tolerance rows sane)
    (hsolver : (Backend.solver : Solver K).Faithful) (hp : p.Restrained)
    (hsolve : p.solve = SolveRule.generating.apply)
    (hresolve : p.resolve = SolveRule.generating.apply)
    (hdirection : s.lp.direction = .minimize)
    (hsane : ∀ {a : Stage K × Run P K} {first : Bool} {st : Status} {t : Run P K},
      Walk p p.ask (.begun, s) a → Step p p.ask a (.solved first st, t) →
      sane a.2.problem ∧ rows a.2.problem = family)
    (hlands : Lands p s fun x => ∀ r ∈ family, r.bound.Admits (weigh r.coefs x)) :
    FindsCheapest p s family := by
  intro a first t hwalk hstep
  have hmin : a.2.lp.direction = .minimize := (Walk.later hp hwalk).direction.trans hdirection
  obtain ⟨hsane, hfamily⟩ := hsane hwalk hstep
  obtain ⟨sol, hsol, hadmits, hcost, hleast, -⟩ :=
    (w.tells hsolver hsolve hresolve hsane hstep).optimal rfl
  refine ⟨sol, hsol, ⟨hadmits, hlands (hwalk.tail hstep) hsol⟩, fun z hz => ?_⟩
  have := hleast z (hfamily.symm ▸ hz)
  rwa [Model.signed, Model.signed, hmin, hcost] at this

end Solves

namespace Thrifty

theorem step (hp : Thrifty p s family share) (hreach : Walk p p.ask (.begun, s) a)
    (h : Step p p.ask a b) (hb : b.1.Alive) {z : List K}
    (hz : a.2.lp.Affords family share budget z) (hreads : a.1.Alive → a.2.lp.Reads z) :
    ∃ z, b.2.lp.Affords family share budget z ∧ b.2.lp.Reads z := by
  have solved {first : Bool} {t : Run P K}
      (h : Step p p.ask a (.solved first .optimal, t)) (happ : a.2.Appended t) :
      ∃ z, t.lp.Affords family share budget z ∧ t.lp.Reads z := by
    obtain ⟨sol, hsol, hmeets, hleast⟩ := hp.solves hreach h
    have hcolumns : t.lp.columns = a.2.lp.columns := by
      obtain ⟨⟨rows, solution, hlp⟩, -⟩ := happ
      rw [hlp]
    exact ⟨sol.values, hz.replace hcolumns hmeets (hleast z hz.meets),
      Model.reads_of_solution hsol⟩
  have still {u : Run P K} (ha : a.1.Alive) (hlp : u.lp = a.2.lp) :
      ∃ z, u.lp.Affords family share budget z ∧ u.lp.Reads z :=
    ⟨z, hlp ▸ hz, hlp ▸ hreads ha⟩
  cases h.move hp.restrained with
  | solve happ =>
    obtain rfl : _ = Status.optimal := hb
    exact solved h happ
  | resolve _ happ =>
    obtain rfl : _ = Status.optimal := hb
    exact solved h happ
  | fix hv hf =>
    obtain ⟨x, hx, hpaid, hmeets⟩ := hp.fixes hreach hv
    have hzx := hreads trivial _ x (Model.open_of_fix hf) hx
    refine ⟨_, hz.fix hf (hmeets z _ hz.meets hzx hf) ?_, (hreads trivial).fix hf⟩
    rw [hzx]
    exact hpaid
  | relax _ _ hr =>
    refine ⟨z, hz.relax hr, ?_⟩
    have hread := hreads trivial
    obtain ⟨r, -, -, hlp⟩ := Model.returns_relaxRow.mp hr
    rw [hlp]
    exact hread
  | enter _ hlp => exact still rfl hlp
  | skip _ hs | leave _ hs => exact still trivial hs.1
  | ended hs => exact still ((h.alive hb).resolve_left nofun) hs.1
  | idle | busy | pass => exact still trivial rfl

/-- A competitor at the start has an heir wherever the run has a point. -/
theorem reached (hp : Thrifty p s family share) {z : List K}
    (hz : s.lp.Affords family share budget z) {stage : Stage K}
    (h : Reached p p.ask s stage t) (hstage : stage.Alive) :
    ∃ z, t.lp.Affords family share budget z ∧ t.lp.Reads z := by
  have hall : (stage = .begun ∨ stage.Alive) → ∃ z, t.lp.Affords family share budget z ∧
      (stage.Alive → t.lp.Reads z) := by
    refine h.induct (motive := fun stage t => (stage = .begun ∨ stage.Alive) →
      ∃ z, t.lp.Affords family share budget z ∧ (stage.Alive → t.lp.Reads z)) ?_ ?_
    · intro _
      exact ⟨z, hz, False.elim⟩
    · intro a b hwalk hstep ih hb
      have hb := hb.resolve_left hstep.ne_begun
      obtain ⟨z, hz, hreads⟩ := ih (hstep.alive hb)
      obtain ⟨z', hz', hreads'⟩ := hp.step hwalk hstep hb hz hreads
      exact ⟨z', hz', fun _ => hreads'⟩
  obtain ⟨z, hz, hreads⟩ := hall (.inr hstage)
  exact ⟨z, hz, hreads hstage⟩

/-- The share of what an answer reports is no more than a competitor costs. -/
theorem share_le [Backend K] (hp : Thrifty p s family share) (hstandard : p.Standard)
    (hsolver : (Backend.solver : Solver K).Truthful)
    (hfeasible : ∀ {s t : Run P K} {b}, Returns Roundable.feasible s b t → t.lp = s.lp)
    {z : List K} (hopen : ∀ c ∈ s.lp.columns, c.fixed = none) (hz : s.lp.Meets family z)
    {out : Outcome K} (h : Returns (run p) s out t) (ho : out.status = .optimal) :
    ∃ c, out.objective = some c ∧ share * c ≤ s.lp.costOf z := by
  have hfinal := final_of_run hsolver hfeasible hstandard h ho
  obtain ⟨z', hz', -⟩ :=
    hp.reached (Model.affords_of_open hopen hz) (reached_of_returns h) ho
  exact ⟨_, hfinal.objective, hz'.share_le hfinal.fixed⟩

theorem of_exactly (hp : p.Restrained) (hsolves : FindsCheapest p s family)
    (hexact : Exactly p s Set.univ) : Thrifty p s family 1 := by
  refine ⟨hp, hsolves, fun {n j r rest t u v} hreach hv => ?_⟩
  exact ⟨v, hexact hreach hv trivial, (one_mul _).le, fun z m hz hzx hf => hz.fix_self hzx hf⟩

/-- Columns that are taken at a half or more, but for the tolerance, pay for half of what they cost,
if the rows only ask for columns; a column at zero goes for nothing. -/
theorem of_commitHalf {ε : K} {rows : Set (Row K)} (hp : p.Restrained)
    (hsolves : FindsCheapest p s family)
    (hrule : p.ask = RoundRule.commitHalf.apply) (hexact : Exactly p s {0})
    (hcost : ∀ j, 0 ≤ s.lp.costAt j) (hfamily : family ⊆ rows)
    (hrows : ∀ r ∈ rows, r.bound.kind = .lower ∧ ∃ js : List Nat, r.coefs = js.map fun i => (i, 1))
    (hround : ∀ {n r : Nat} {columns : List Nat} {t : Run P K},
      Reached p p.ask s (.rounding n columns r) t →
      (Roundable.tolerance t.problem).epsilon = ε ∧ t.lp.Drawn 0 rows ∧
        ∀ z, t.lp.Admits z → ∀ i, 0 ≤ z.getD i 0 ∧ (z.getD i 0 ≤ 1 ∨ ∀ r ∈ rows, r.bound.lo ≤ 1)) :
    Thrifty p s family (1 / 2 - ε) := by
  refine ⟨hp, hsolves, fun {n j r rest t u v} hreach hv => ?_⟩
  obtain ⟨htolerance, hdrawn, hrange⟩ := hround hreach
  have hcost : 0 ≤ t.lp.costAt j := (Walk.later hp hreach).costAt j ▸ hcost j
  rcases RoundRule.commits_commitHalf (hrule ▸ hv) with ⟨hnone, -⟩ | ⟨hzero, -⟩ | ⟨hone, -⟩
  · cases hnone
  · obtain rfl := Option.some.inj hzero
    exact ⟨0, hexact hreach hv rfl, by simp, fun z m hz hzx hf => hz.fix_self hzx hf⟩
  · obtain rfl := Option.some.inj hone
    obtain ⟨x, hx, hhalf⟩ := RoundRule.taken_of_commitHalf (hrule ▸ hv)
    rw [htolerance] at hhalf
    refine ⟨x, hx, ?_, fun z m hz hzx hf => ?_⟩
    · rw [mul_one, mul_comm]
      exact mul_le_mul_of_nonneg_left hhalf hcost
    have hrange := hrange z hz.admits
    -- a row of this kind does not notice that the column goes up to one
    have hstill {r r₀ : Row K} (hr : r₀ ∈ rows) (hbound : r.bound = r₀.bound)
        (hcoefs : r.coefs = r₀.coefs) (hmet : r.bound.Admits (weigh r.coefs z)) :
        r.bound.Admits (weigh r.coefs (z.set j 1)) := by
      obtain ⟨hkind, js, hjs⟩ := hrows r₀ hr
      rw [hbound, hcoefs, hjs] at hmet ⊢
      simp only [Bound.Admits, hkind] at hmet ⊢
      exact le_weigh_set (fun i => (hrange i).1) ((hrange j).2.imp_right fun h => h r₀ hr) hmet
    refine hz.fix hf (fun r hr hk => ?_) fun r hr => ?_
    · obtain ⟨r₀, hr₀, hbound, hcoefs⟩ := hdrawn.of_mem hr
      exact hstill hr₀ hbound hcoefs (hz.admits.rows r hr hk)
    · exact hstill (hfamily hr) rfl rfl (hz.rows r hr)

end Thrifty

end Engine

end LPRounding
