import LPRounding.Proofs.Run.Improvement
import LPRounding.Proofs.Run.Refinement

/-!
Where a run stands, what its rows are and where its point comes from. The rows are those it began
with and those that its solves have added, some of them relaxed, and the point at hand is that of
the last solve until the next one.
-/

namespace LPRounding

set_option linter.unusedSectionVars false

variable {P K : Type} [Field K] [LinearOrder K] [IsStrictOrderedRing K] [FloorRing K]

/-- Every row from the `k`-th on has the bound and the coefficients of one of the given ones. -/
def Model.Drawn (k : Nat) (rows : Set (Row K)) (m : Model K) : Prop :=
  ∀ (i : Nat) r, k ≤ i → m.rows[i]? = some r →
    ∃ r₀ ∈ rows, r.bound = r₀.bound ∧ r.coefs = r₀.coefs

namespace Model.Drawn

variable {k : Nat} {rows family : Set (Row K)} {m m' : Model K}

theorem of_mem {r : Row K} (h : m.Drawn 0 rows) (hr : r ∈ m.rows) :
    ∃ r₀ ∈ rows, r.bound = r₀.bound ∧ r.coefs = r₀.coefs := by
  obtain ⟨i, hi⟩ := List.mem_iff_getElem?.mp hr
  exact h i r (Nat.zero_le i) hi

theorem extend (h : m.Drawn k rows) (hext : m.Extended family m') (hsub : family ⊆ rows) :
    m'.Drawn k rows := by
  obtain ⟨new, solution, hnew, rfl⟩ := hext
  intro i r hi hr
  by_cases hlt : i < m.rows.length
  · rw [List.getElem?_append_left hlt] at hr
    exact h i r hi hr
  · rw [List.getElem?_append_right (not_lt.mp hlt)] at hr
    exact ⟨r, hsub (hnew r (List.mem_of_getElem? hr)), rfl, rfl⟩

theorem relax {j : Nat} (h : m.Drawn k rows) (hr : Returns (relaxRow j) m () m') :
    m'.Drawn k rows := by
  obtain ⟨r, hrow, -, rfl⟩ := returns_relaxRow.mp hr
  intro i r' hi hr'
  by_cases hij : j = i
  · subst hij
    rw [List.getElem?_set_self (List.getElem?_eq_some_iff.mp hrow).1] at hr'
    obtain rfl := Option.some.inj hr'
    exact h j r hi hrow
  · rw [List.getElem?_set_ne hij] at hr'
    exact h i r' hi hr'

end Model.Drawn

variable [Roundable P K]

namespace Engine

variable {p : Policies P K} {rule : Nat → Action P K (Option K)} {s t : Run P K}
  {stage : Stage K}

/-- What steps that keep `base`, `pass` and `point` have established where a run stands. -/
def Upheld (base pass point : P → Model K → Prop) : Stage K → Run P K → Prop
  | .solved _ st, t => st = .optimal → point t.problem t.lp
  | .rounding _ _ r, t => pass t.problem t.lp ∧ (r = 0 → point t.problem t.lp)
  | .relaxing _ _ _, t => point t.problem t.lp
  | .begun, t | .passed _ _ _, t => base t.problem t.lp
  | .ended _, _ => True

variable {base pass point : P → Model K → Prop}

theorem Keeps.upheld (k : Keeps p rule base pass point)
    (hstop : ∀ {s t b}, Returns p.stop s b t → s.Agree t) {a b : Stage K × Run P K}
    (h : Step p rule a b) (ha : Upheld base pass point a.1 a.2) :
    Upheld base pass point b.1 b.2 := by
  have still {inv : P → Model K → Prop} {u v : Run P K} (hu : inv u.problem u.lp)
      (huv : u.Agree v) : inv v.problem v.lp := huv.1 ▸ huv.2 ▸ hu
  cases h with
  | solve h =>
    rintro rfl
    obtain ⟨u, hu, huv⟩ := returns_solve h
    exact still (k.solve ha hu) huv
  | enter hb hn =>
    have hagree := (hstop hb).trans (returns_beginIteration hn)
    exact ⟨still (k.enter (ha rfl)) hagree, fun _ => still (ha rfl) hagree⟩
  | skip hv => exact ⟨still ha.1 (k.skip hv), fun hr => still (ha.2 hr) (k.skip hv)⟩
  | fix hv hf =>
    simp only [returns_bind, Action.returns_onModel, Action.returns_note] at hf
    obtain ⟨_, _, ⟨m, hm, rfl⟩, rfl⟩ := hf
    have hpass := k.fix ha.1 hv hm
    exact ⟨hpass, fun hr => absurd hr (Nat.succ_ne_zero _)⟩
  | idle => exact ha.2 rfl
  | busy => exact k.exit ha.1
  | leave _ hb => exact still ha (k.leave hb)
  | relax _ hb hr =>
    simp only [returns_bind, Action.returns_onModel, Action.returns_note] at hr
    obtain ⟨_, _, ⟨m, hm, rfl⟩, rfl⟩ := hr
    have hpoint := k.relax ha hb hm
    exact hpoint
  | limit | out => exact k.exit (k.enter ha)
  | resolve _ h =>
    rintro rfl
    obtain ⟨u, hu, huv⟩ := returns_settle h
    exact still (k.resolve (by exact ha) hu) huv
  | finish | lose => trivial

theorem Keeps.reached [Backend K] (k : Keeps p rule base pass point)
    (hstop : p.stop = StopRule.allFixed.apply) (hs : base s.problem s.lp)
    (h : Reached p rule s stage t) : Upheld base pass point stage t := by
  refine h.induct hs fun _ hstep => k.upheld (fun hb => ?_) hstep
  obtain ⟨rfl, -⟩ := returns_allFixed (hstop ▸ hb)
  exact ⟨rfl, rfl⟩

theorem Keeps.before_solve [Backend K] (k : Keeps p rule base pass point)
    (hstop : p.stop = StopRule.allFixed.apply) (hs : base s.problem s.lp)
    {a : Stage K × Run P K} {first : Bool} {st : Status} (hwalk : Walk p rule (.begun, s) a)
    (hstep : Step p rule a (.solved first st, t)) : base a.2.problem a.2.lp := by
  have hup := k.reached hstop hs hwalk
  cases hstep with
  | solve | resolve => exact hup

theorem Reached.drawn {k : Nat} {rows family : Set (Row K)} (hp : p.Restrained)
    (hsolves : ∀ {a : Stage K × Run P K} {first : Bool} {st : Status} {t : Run P K},
      Walk p p.ask (.begun, s) a → Step p p.ask a (.solved first st, t) →
      a.2.lp.Extended family t.lp)
    (hsub : family ⊆ rows) (hs : s.lp.Drawn k rows) (h : Reached p p.ask s stage t) :
    t.lp.Drawn k rows := by
  refine h.induct hs fun {a b} hwalk hstep ha => ?_
  have still {u v : Run P K} (hu : u.lp.Drawn k rows) (hlp : v.lp = u.lp) : v.lp.Drawn k rows :=
    hlp ▸ hu
  cases hstep.move hp with
  | solve | resolve => exact ha.extend (hsolves hwalk hstep) hsub
  | fix _ hf =>
    obtain ⟨c, -, -, hlp⟩ := Model.returns_fixColumn.mp hf
    rw [hlp]
    exact ha
  | relax _ _ hr => exact ha.relax hr
  | enter _ hlp => exact still ha hlp
  | skip _ hs | leave _ hs | ended hs => exact still ha hs.1
  | idle | busy | pass => exact ha

/-- The solves of a run end at good points. -/
def Lands (p : Policies P K) (s : Run P K) (good : List K → Prop) : Prop :=
  ∀ ⦃first : Bool⦄ ⦃t : Run P K⦄ ⦃sol : Solution K⦄,
    Reached p p.ask s (.solved first .optimal) t → t.lp.solution = some sol → good sol.values

/-- A column that is fixed at one of the values has it. -/
def Exactly (p : Policies P K) (s : Run P K) (values : Set K) : Prop :=
  ∀ ⦃n j r : Nat⦄ ⦃rest : List Nat⦄ ⦃t u : Run P K⦄ ⦃v : K⦄,
    Reached p p.ask s (.rounding n (j :: rest) r) t → Returns (p.ask j) t (some v) u →
    v ∈ values → t.lp.columnValue j = .ok v

/-- No value is next to one of the targets but is not that target. -/
def Crisp (ε : K) (targets values : List K) : Prop :=
  ∀ x ∈ values, ∀ v ∈ targets, |x - v| < ε → x = v

variable {good : List K → Prop}

theorem Lands.mono {more : List K → Prop} (h : Lands p s good) (hmore : ∀ x, good x → more x) :
    Lands p s more :=
  fun _ _ _ hreach hsol => hmore _ (h hreach hsol)

theorem Lands.reached (hl : Lands p s good) (hp : p.Restrained) (h : Reached p p.ask s stage t)
    (hstage : stage.Alive) {sol : Solution K} (hsol : t.lp.solution = some sol) :
    good sol.values := by
  have hall : (stage = .begun ∨ stage.Alive) → stage.Alive →
      ∀ {sol}, t.lp.solution = some sol → good sol.values := by
    refine h.induct (motive := fun stage t => (stage = .begun ∨ stage.Alive) → stage.Alive →
      ∀ {sol}, t.lp.solution = some sol → good sol.values) (fun _ hb => hb.elim) ?_
    intro a b hwalk hstep ih _ hb sol hsol
    have before {sol : Solution K} (hne : a.1 ≠ .begun) (hsol : a.2.lp.solution = some sol) :
        good sol.values := by
      have ha := hstep.alive hb
      exact ih ha (ha.resolve_left hne) hsol
    cases hstep.move hp with
    | solve | resolve =>
      obtain rfl : _ = Status.optimal := hb
      exact hl (hwalk.tail hstep) hsol
    | fix _ hf =>
      obtain ⟨c, -, -, hlp⟩ := Model.returns_fixColumn.mp hf
      rw [hlp] at hsol
      exact before nofun hsol
    | relax _ _ hr =>
      obtain ⟨r, -, -, hlp⟩ := Model.returns_relaxRow.mp hr
      rw [hlp] at hsol
      exact before nofun hsol
    | enter _ hlp => exact before nofun (hlp ▸ hsol)
    | skip _ hs | leave _ hs | ended hs => exact before nofun (hs.1 ▸ hsol)
    | idle | busy | pass => exact before nofun hsol
  exact hall (.inr hstage) hstage hsol

theorem Lands.exactly {ε : K} {values : Set K} {targets : List K} (hp : p.Restrained)
    (hl : Lands p s (Crisp ε targets))
    (htolerance : ∀ {n r : Nat} {columns : List Nat} {t : Run P K},
      Reached p p.ask s (.rounding n columns r) t → (Roundable.tolerance t.problem).epsilon = ε)
    (hnear : ∀ {s t j v}, Returns (p.ask j) s (some v) t → v ∈ values →
      v ∈ targets ∧ ∃ x, s.lp.columnValue j = .ok x ∧
        |x - v| < (Roundable.tolerance s.problem).epsilon) : Exactly p s values := by
  intro _ _ _ _ _ _ v hreach hv hmem
  obtain ⟨htarget, x, hx, hlt⟩ := hnear hv hmem
  obtain ⟨-, sol, hsol, hget⟩ := Model.columnValue_eq_ok.mp hx
  rw [htolerance hreach] at hlt
  obtain rfl := hl.reached hp hreach trivial hsol x (List.mem_of_getElem? hget) v htarget hlt
  exact hx

theorem Lands.exactly_of_commitHalf {ε : K} (hp : p.Restrained)
    (hrule : p.ask = RoundRule.commitHalf.apply) (hl : Lands p s (Crisp ε [0]))
    (htolerance : ∀ {n r : Nat} {columns : List Nat} {t : Run P K},
      Reached p p.ask s (.rounding n columns r) t → (Roundable.tolerance t.problem).epsilon = ε) :
    Exactly p s {0} := by
  refine hl.exactly hp htolerance ?_
  rintro s t j _ hv rfl
  obtain ⟨x, hx, hlt⟩ := RoundRule.dropped_of_commitHalf (hrule ▸ hv)
  exact ⟨List.mem_singleton_self 0, x, hx, by rwa [sub_zero]⟩

theorem Lands.exactly_of_commitOne {ε : K} (hp : p.Restrained)
    (hrule : p.ask = RoundRule.commitOne.apply) (hl : Lands p s (Crisp ε [0, 1]))
    (htolerance : ∀ {n r : Nat} {columns : List Nat} {t : Run P K},
      Reached p p.ask s (.rounding n columns r) t → (Roundable.tolerance t.problem).epsilon = ε) :
    Exactly p s Set.univ := by
  refine hl.exactly hp htolerance fun {s t j v} hv _ => ?_
  obtain ⟨hbinary, hnear⟩ := RoundRule.near_of_commitOne (hrule ▸ hv)
  exact ⟨by simpa using hbinary, hnear⟩

theorem crisp_of_binary {ε : K} {targets xs : List K} (hε : ε ≤ 1)
    (htargets : ∀ v ∈ targets, v = 0 ∨ v = 1) (hxs : ∀ x ∈ xs, x = 0 ∨ x = 1) :
    Crisp ε targets xs := by
  intro x hx v hv hlt
  rcases hxs x hx with rfl | rfl <;> rcases htargets v hv with rfl | rfl
  · rfl
  · rw [zero_sub, abs_neg, abs_one] at hlt
    exact absurd hlt (not_lt.mpr hε)
  · rw [sub_zero, abs_one] at hlt
    exact absurd hlt (not_lt.mpr hε)
  · rfl

theorem lands_of_solver [Backend K] (good : List K → Prop) (hp : p.Standard)
    (hfeasible : ∀ {s t : Run P K} {b}, Returns Roundable.feasible s b t → t.lp = s.lp)
    (hsolver : ∀ s x c, (Backend.solver : Solver K) s = .optimal x c → good x)
    (hnil : good []) : Lands p s good := by
  intro first t sol h hsol
  have hsolve {m m' : Model K} (hm : Returns (Model.solve Backend.solver) m .optimal m') :
      ∀ sol, m'.solution = some sol → good sol.values := by
    intro sol hsol
    obtain ⟨_, rfl, ⟨-, -, -, rfl⟩ | ⟨-, -, x, c, hx, rfl⟩ | ⟨hn, -⟩⟩ := Model.returns_solve hm
    · obtain rfl := Option.some.inj hsol
      exact hnil
    · obtain rfl := Option.some.inj hsol
      exact hsolver _ x c hx
    · exact absurd rfl hn
  exact h.establishes hsolve hfeasible hp sol hsol

end Engine

namespace Oracle.Generates

variable {S C N : Type} [Dice S K] [Backend K] {h : Home P K S C N} {k : Checker P K C N}
  {tolerance : P → Tolerance K} {family : P → Set (Row K)} {sane : P → Prop}
  {p : Policies P K} {s t : Run P K}

open Engine

theorem extended (w : Generates h k tolerance family sane)
    (hsolve : p.solve = SolveRule.generating.apply)
    (hresolve : p.resolve = SolveRule.generating.apply) {a : Stage K × Run P K} {first : Bool}
    {st : Status} (hsane : sane a.2.problem) (hstep : Step p p.ask a (.solved first st, t)) :
    a.2.lp.Extended (family a.2.problem) t.lp := by
  obtain ⟨u, v, hu, hv, ht⟩ := hstep.calls hsolve hresolve
  rw [← hu.1] at hsane
  rw [← hu.1, ← hu.2, ht.2]
  exact (w.grows hsane hv).model

/-- It says of the model with the whole family what it says of the model at hand. -/
theorem tells (w : Generates h k tolerance family sane)
    (hsolver : (Backend.solver : Solver K).Faithful)
    (hsolve : p.solve = SolveRule.generating.apply)
    (hresolve : p.resolve = SolveRule.generating.apply) {a : Stage K × Run P K} {first : Bool}
    {st : Status} (hsane : sane a.2.problem) (hstep : Step p p.ask a (.solved first st, t)) :
    a.2.lp.Tells (family a.2.problem) st t.lp := by
  obtain ⟨u, v, hu, hv, ht⟩ := hstep.calls hsolve hresolve
  rw [← hu.1] at hsane
  rw [← hu.1, ← hu.2, ht.2]
  exact (w.refines hsolver hsane hv).tells

end Oracle.Generates

end LPRounding
