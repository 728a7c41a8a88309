import LPRounding.Proofs.Ends
import LPRounding.Proofs.Run.Rules
import LPRounding.Proofs.LP.Vertex

/-!
Why a run ends. As long as some column can be rounded or some row relaxed at every point that leaves
a column open, no iteration is stuck; each has one column or one row less to go, so a run needs no
more iterations than there are of both.
-/

namespace LPRounding

set_option linter.unusedSectionVars false

section Open

variable {K : Type} [Field K] [LinearOrder K] [IsStrictOrderedRing K] [FloorRing K]

theorem between_of_far {ε x : K} (hε : 0 < ε) (h0 : 0 ≤ x) (h1 : x ≤ 1)
    (hfar : ¬ (|x| < ε ∨ |x - 1| < ε)) : 0 < x ∧ x < 1 := by
  constructor
  · refine h0.lt_of_ne' fun hzero => hfar (.inl ?_)
    rwa [hzero, abs_zero]
  · refine h1.lt_of_ne fun hone => hfar (.inr ?_)
    rwa [hone, sub_self, abs_zero]

namespace Model

/-- The open columns of a model and its kept rows among those that may go. -/
def toGo (may : Nat → Bool) (m : Model K) : Nat :=
  m.activeColumns.length + (m.activeRows.filter may).length

variable {m m' : Model K} {j : Nat} {may : Nat → Bool}

theorem toGo_fix {v : K} (h : Returns (fixColumn j v) m () m') :
    m'.toGo may < m.toGo may := by
  have hlt : m'.activeColumns.length < m.activeColumns.length :=
    Nat.lt_of_succ_le (length_activeColumns_fix h).le
  obtain ⟨c, -, -, rfl⟩ := returns_fixColumn.mp h
  exact Nat.add_lt_add_right hlt _

theorem toGo_relax (h : Returns (relaxRow j) m () m') (hmay : may j = true) :
    m'.toGo may < m.toGo may := by
  have hmem (i : Nat) : i ∈ m'.activeRows.filter may ↔ i ∈ m.activeRows.filter may ∧ i ≠ j := by
    simp only [List.mem_filter, mem_activeRows_relax h]
    tauto
  obtain ⟨r, hr, hk, rfl⟩ := returns_relaxRow.mp h
  have hj : j ∈ m.activeRows.filter may :=
    List.mem_filter.mpr ⟨mem_activeRows.mpr ⟨r, hr, hk⟩, hmay⟩
  exact Nat.add_lt_add_left (Nat.lt_of_succ_le (length_of_missing
    ((nodup_positions _ _).filter _) ((nodup_positions _ _).filter _) hj hmem).le) _

theorem toGo_le : m.toGo may ≤ m.columns.length + (m.activeRows.filter may).length := by
  refine Nat.add_le_add_right ?_ _
  have := List.length_filter_le (fun e : Column K × Nat => e.1.isActive) m.columns.zipIdx
  simpa [activeColumns, positions] using this

def Valued (m : Model K) : Prop :=
  ∃ s, m.solution = some s ∧ s.values.length = m.columns.length

theorem Valued.fix {v : K} (h : m.Valued) (hf : Returns (fixColumn j v) m () m') : m'.Valued := by
  obtain ⟨c, -, -, rfl⟩ := returns_fixColumn.mp hf
  obtain ⟨s, hs, hl⟩ := h
  exact ⟨s, hs, by simpa using hl⟩

theorem Valued.relax (h : m.Valued) (hf : Returns (relaxRow j) m () m') : m'.Valued := by
  obtain ⟨r, -, -, rfl⟩ := returns_relaxRow.mp hf
  exact h

theorem Solved.valued (h : m.Solved) : m.Valued := by
  obtain ⟨s, hs, hx⟩ := h
  exact ⟨s, hs, hx.length⟩

theorem columnValue_eq {s : Solution K} (hs : m.solution = some s)
    (hl : s.values.length = m.columns.length) (hj : j < m.columns.length) :
    m.columnValue j = .ok (s.values.getD j 0) := by
  refine columnValue_eq_ok.mpr ⟨hj, s, hs, ?_⟩
  have hlt : j < s.values.length := hl ▸ hj
  simp [hlt]

theorem below_half_of_far {s : Solution K} {ε : K} (hs : m.solution = some s)
    (hl : s.values.length = m.columns.length) (hε : 0 < ε)
    (hfar : ¬ ∃ c ∈ m.activeColumns, ∃ x, m.columnValue c = .ok x ∧ (x < ε ∨ 1 / 2 - ε ≤ x))
    (hj : j ∈ m.activeColumns) : 0 < s.values.getD j 0 ∧ s.values.getD j 0 < 1 / 2 := by
  have hc := columnValue_eq hs hl (mem_activeColumns_iff.mp hj).1
  have hfar := not_or.mp fun hnear => hfar ⟨j, hj, _, hc, hnear⟩
  rw [not_lt, not_le] at hfar
  exact ⟨by linarith [hfar.1], by linarith [hfar.2]⟩

theorem exists_rowSum {s : Solution K} {r : Row K} (hs : m.solution = some s)
    (hr : m.rows[j]? = some r) (hc : ∀ e ∈ r.coefs, e.1 < s.values.length) :
    ∃ v, m.rowSum j = .ok v := by
  have hread : ∀ e ∈ r.coefs.filter m.counts, ∃ v, s.value e.1 = (.ok v : Except (Fault K) K) := by
    intro e he
    have hlt := hc e (List.mem_filter.mp he).1
    exact ⟨s.values[e.1], by simp [Solution.value, hlt]⟩
  obtain ⟨vs, hvs⟩ : ∃ vs, (r.coefs.filter m.counts).mapM (fun e => s.value e.1) =
      (.ok vs : Except (Fault K) (List K)) := by
    generalize r.coefs.filter m.counts = es at hread
    induction es with
    | nil => exact ⟨[], rfl⟩
    | cons e es ih =>
      obtain ⟨v, hv⟩ := hread e List.mem_cons_self
      obtain ⟨vs, hvs⟩ := ih fun e he => hread e (List.mem_cons_of_mem _ he)
      exact ⟨v :: vs, mapM_ok_iff.mpr (.cons hv (mapM_ok_iff.mp hvs))⟩
  refine ⟨Scalar.sum vs, ?_⟩
  simp only [rowSum, lastSolution, hs, row, hr]
  exact ok_bind_iff.mpr ⟨s, rfl, ok_bind_iff.mpr ⟨r, rfl, ok_bind_iff.mpr ⟨vs, hvs, rfl⟩⟩⟩

/-- Why a solve may fail: the solver refuses the system or comes to no answer. -/
def Refused (solver : Solver K) (m : Model K) (e : Fault K) : Prop :=
  (∃ part, solver m.system = .refused part ∧ e = .notFinite part) ∨
    solver m.system = .undecided ∧ e = .undecided m.name

theorem solve_ends {solver : Solver K} (hl : m.loaded = true) :
    Ends (solve solver) m (fun _ _ => True) (m.Refused solver) := by
  simp only [solve, ends_bind, ends_get, hl, Bool.not_true, Bool.false_eq_true, if_false, ends_set]
  split
  · split <;> simp
  · split
    · simp
    · simp
    · simp
    · next part h => exact .inl ⟨part, h, rfl⟩
    · next h => exact .inr ⟨h, rfl⟩

theorem vertex_of_solve {solver : Solver K} (hs : solver.Extreme)
    (h : Returns (solve solver) m .optimal m') :
    ∃ s, m'.solution = some s ∧ m'.system.Vertex s.values := by
  obtain ⟨s, rfl, ⟨-, hc, ha, rfl⟩ | ⟨-, -, x, c, hx, rfl⟩ | ⟨hn, -⟩⟩ := returns_solve h
  · refine ⟨_, rfl, feasible_iff_admits.mpr (admits_nil hc ha), fun y z hy hz _ => ?_⟩
    have hlen {y : List K} (hy : m.system.Feasible y) : y = [] := by
      rw [← List.length_eq_zero_iff, hy.length]
      simp [system, hc]
    rw [hlen hy, hlen hz]
  · exact ⟨_, rfl, hs _ x c hx⟩
  · exact absurd rfl hn

end Model

theorem Action.solveModel_ends {P : Type} [Backend K] {s : Run P K} {may : Nat → Bool}
    (hl : s.lp.loaded = true) : Ends Action.solveModel s
      (fun _ t => t.lp.toGo may = s.lp.toGo may ∧ t.iterations = s.iterations)
      (s.lp.Refused Backend.solver) := by
  simp only [solveModel, ends_bind, ends_onModel, ends_model]
  refine (Model.solve_ends hl).mono (fun st m' h _ => ?_) fun _ => id
  obtain ⟨sol, rfl, -⟩ := Model.returns_solve h
  split
  · split <;> exact ⟨rfl, rfl⟩
  · exact ⟨rfl, rfl⟩

namespace RoundRule

variable {P : Type} [Roundable P K] {s : Run P K} {j : Nat} {x : K} {bad : Fault K → Prop}

theorem atValue_ends {value : K} {good : Option K → Run P K → Prop}
    (hx : s.lp.columnValue j = .ok x) (hgood : ∀ r, r = none ∨ r = some value → good r s) :
    Ends (atValue value j) s good bad := by
  simp only [atValue, tolerance, ends_bind, Action.ends_model, ends_lift_ok hx,
    Action.ends_problem, ends_pure]
  refine hgood _ ?_
  split <;> simp

theorem atHalf_ends {good : Option K → Run P K → Prop} (hx : s.lp.columnValue j = .ok x)
    (hgood : ∀ r, r = none ∨ r = some 1 → good r s) : Ends (atHalf j) s good bad := by
  simp only [atHalf, tolerance, ends_bind, Action.ends_model, ends_lift_ok hx,
    Action.ends_problem, ends_pure]
  refine hgood _ ?_
  split <;> simp

theorem zeroThenOne_ends {good : Option K → Run P K → Prop} (hx : s.lp.columnValue j = .ok x)
    (hgood : ∀ r, good r s) : Ends (zeroThenOne.apply j) s good bad := by
  simp only [zeroThenOne, RoundRule.apply, applyFirst, ends_bind]
  refine atValue_ends hx fun r _ => ?_
  split
  · exact hgood _
  · rw [ends_bind]
    refine atValue_ends hx fun r _ => ?_
    split <;> exact hgood _

theorem committing_ends {take : Nat → Action P K (Option K)} {good : Option K → Run P K → Prop}
    (hx : s.lp.columnValue j = .ok x) (hgood : ∀ r, good r s)
    (htake : ∀ next : Option K → Run P K → Prop, (∀ r, r = none ∨ r = some 1 → next r s) →
      Ends (take j) s next bad)
    (hc : Ends (Roundable.commit j) s (fun _ t => good (some 1) t) bad) :
    Ends (committing take j) s good bad := by
  simp only [committing, ends_bind]
  refine atValue_ends hx fun r _ => ?_
  split
  · exact hgood _
  · refine ends_bind.mpr (htake _ ?_)
    rintro r (rfl | rfl)
    · exact hgood none
    · simpa using hc

theorem commitHalf_ends {good : Option K → Run P K → Prop} (hx : s.lp.columnValue j = .ok x)
    (hgood : ∀ r, good r s) (hc : Ends (Roundable.commit j) s (fun _ t => good (some 1) t) bad) :
    Ends (commitHalf.apply j) s good bad := by
  rw [RoundRule.apply]
  exact committing_ends hx hgood (fun _ => atHalf_ends hx) hc

theorem commitOne_ends {good : Option K → Run P K → Prop} (hx : s.lp.columnValue j = .ok x)
    (hgood : ∀ r, good r s) (hc : Ends (Roundable.commit j) s (fun _ t => good (some 1) t) bad) :
    Ends (commitOne.apply j) s good bad := by
  rw [RoundRule.apply]
  exact committing_ends hx hgood (fun _ => atValue_ends hx) hc

end RoundRule

end Open

variable {P K : Type} [Field K] [LinearOrder K] [IsStrictOrderedRing K] [FloorRing K]
  [Roundable P K]

namespace Engine

/-- What a run by these policies needs so as to go on: policies fail with `bad` faults alone and
leave the model to the engine, rows go only if they `may`, and where a `fresh` point leaves a column
open some column or row moves. -/
structure Live (p : Policies P K) (rule : Nat → Action P K (Option K))
    (base pass point fresh : P → Model K → Prop) (may : Nat → Bool) (bad : Fault K → Prop) :
    Prop where
  solve : ∀ {s}, base s.problem s.lp → Ends p.solve s (fun st t =>
    (st = .optimal → fresh t.problem t.lp) ∧ t.lp.toGo may = s.lp.toGo may ∧
      t.iterations = s.iterations) bad
  resolve : ∀ {s}, base s.problem s.lp → Ends p.resolve s (fun st t =>
    (st = .optimal → fresh t.problem t.lp) ∧ t.lp.toGo may = s.lp.toGo may ∧
      t.iterations = s.iterations) bad
  ask : ∀ {s j}, pass s.problem s.lp → j ∈ s.lp.activeColumns →
    Ends (rule j) s (fun _ t => Still s t) bad
  relax : ∀ {s i}, point s.problem s.lp → i ∈ s.lp.activeRows →
    Ends (p.relax i) s (fun b t => Still s t ∧ (b = true → may i = true)) bad
  setSolution : ∀ {s}, point s.problem s.lp → s.lp.activeColumns = [] →
    Ends p.setSolution s (fun _ t => Still s t) bad
  limit : p.limit 0 = false
  solved : ∀ {q m}, point q m → m.solution.isSome = true
  moves : ∀ {s : Run P K}, point s.problem s.lp → fresh s.problem s.lp →
    s.lp.activeColumns ≠ [] →
    (∀ j ∈ s.lp.activeColumns, ∃ u v, s.Agree u ∧ Returns (rule j) u none v) →
    (∀ i ∈ s.lp.activeRows, ∃ u v, s.Agree u ∧ Returns (p.relax i) u false v) → False

variable {p : Policies P K} {rule : Nat → Action P K (Option K)}
  {base pass point fresh : P → Model K → Prop} {may : Nat → Bool} {bad : Fault K → Prop}
  {s t : Run P K}

theorem roundColumns_vain (k : Keeps p rule base pass point) {columns : List Nat} {n : Nat}
    (h : Returns (roundColumns rule columns n) s n t) :
    ∀ j ∈ columns, ∃ u v, s.Agree u ∧ Returns (rule j) u none v := by
  induction columns generalizing s with
  | nil => simp
  | cons j rest ih =>
    unfold roundColumns at h
    obtain ⟨v, u, hv, h⟩ := returns_bind.mp h
    cases v with
    | none =>
      intro i hi
      rcases List.mem_cons.mp hi with rfl | hi
      · exact ⟨s, u, ⟨rfl, rfl⟩, hv⟩
      · obtain ⟨w, x, hw, hx⟩ := ih h i hi
        exact ⟨w, x, (k.skip hv).trans hw, hx⟩
    | some v =>
      simp only [returns_bind] at h
      obtain ⟨_, _, -, _, _, -, h⟩ := h
      have := (roundColumns_idle k h).1
      omega

theorem relaxRows_idle {rows : List Nat} {n r : Nat}
    (h : Returns (relaxRows p rows n) s r t) : n ≤ r := by
  induction rows generalizing s n with
  | nil => exact (returns_pure.mp h).1.le
  | cons i rest ih =>
    unfold relaxRows at h
    split at h
    · exact (returns_pure.mp h).1.le
    obtain ⟨b, u, hb, h⟩ := returns_bind.mp h
    cases b with
    | false => exact ih h
    | true =>
      simp only [if_true, returns_bind] at h
      obtain ⟨_, _, -, _, _, -, h⟩ := h
      have := ih h
      omega

theorem relaxRows_vain (k : Keeps p rule base pass point) {rows : List Nat} {n : Nat}
    (hl : p.limit n = false) (h : Returns (relaxRows p rows n) s n t) :
    ∀ i ∈ rows, ∃ u v, s.Agree u ∧ Returns (p.relax i) u false v := by
  induction rows generalizing s with
  | nil => simp
  | cons i rest ih =>
    unfold relaxRows at h
    simp only [hl, Bool.false_eq_true, if_false] at h
    obtain ⟨b, u, hb, h⟩ := returns_bind.mp h
    cases b with
    | false =>
      intro i' hi
      rcases List.mem_cons.mp hi with rfl | hi
      · exact ⟨s, u, ⟨rfl, rfl⟩, hb⟩
      · obtain ⟨w, x, hw, hx⟩ := ih h i' hi
        exact ⟨w, x, (k.leave hb).trans hw, hx⟩
    | true =>
      simp only [if_true, returns_bind] at h
      obtain ⟨_, _, -, _, _, -, h⟩ := h
      have := relaxRows_idle h
      omega

theorem roundColumns_ends (k : Keeps p rule base pass point)
    (l : Live p rule base pass point fresh may bad) {columns : List Nat} {n : Nat}
    (hs : pass s.problem s.lp) (hn : columns.Nodup) (ha : ∀ j ∈ columns, j ∈ s.lp.activeColumns) :
    Ends (roundColumns rule columns n) s
      (fun r t => t.lp.toGo may + r ≤ s.lp.toGo may + n ∧ t.iterations = s.iterations) bad := by
  induction columns generalizing s n with
  | nil => exact ⟨le_rfl, rfl⟩
  | cons j rest ih =>
    obtain ⟨hj, hn⟩ := List.nodup_cons.mp hn
    have hactive := ha j List.mem_cons_self
    unfold roundColumns
    rw [ends_bind]
    refine (l.ask hs hactive).mono (fun v u hv hu => ?_) fun _ => id
    obtain ⟨hlp, hit⟩ := hu
    cases v with
    | none =>
      obtain ⟨hp, -⟩ := k.skip hv
      have := ih (s := u) (n := n) (by rw [hp, hlp]; exact hs) hn
        fun i hi => hlp ▸ ha i (List.mem_cons_of_mem _ hi)
      rwa [hlp, hit] at this
    | some v =>
      obtain ⟨c, hc, hf⟩ := Model.mem_activeColumns.mp hactive
      rw [← hlp] at hc
      obtain ⟨m, hm⟩ : ∃ m, Returns (Model.fixColumn j v) u.lp () m :=
        ⟨_, Model.returns_fixColumn.mpr ⟨c, hc, hf, rfl⟩⟩
      simp only [ends_bind, Action.ends_onModel, Action.ends_note, hm.ends]
      have hq := k.fix hs hv hm
      refine Ends.mono (ih hq hn fun i hi => ?_) (fun r t _ ht => ?_) fun _ => id
      · refine (Model.mem_activeColumns_fix hm).mpr ⟨hlp ▸ ha i (List.mem_cons_of_mem _ hi), ?_⟩
        rintro rfl
        exact hj hi
      · have : m.toGo may < u.lp.toGo may := Model.toGo_fix hm
        rw [hlp] at this
        have hle : t.lp.toGo may + r ≤ m.toGo may + (n + 1) := ht.1
        exact ⟨by omega, ht.2.trans hit⟩

theorem relaxRows_ends (k : Keeps p rule base pass point)
    (l : Live p rule base pass point fresh may bad) {rows : List Nat} {n : Nat}
    (hs : point s.problem s.lp) (hn : rows.Nodup) (ha : ∀ i ∈ rows, i ∈ s.lp.activeRows) :
    Ends (relaxRows p rows n) s
      (fun r t => t.lp.toGo may + r ≤ s.lp.toGo may + n ∧ t.iterations = s.iterations) bad := by
  induction rows generalizing s n with
  | nil => exact ⟨le_rfl, rfl⟩
  | cons i rest ih =>
    obtain ⟨hi, hn⟩ := List.nodup_cons.mp hn
    have hactive := ha i List.mem_cons_self
    unfold relaxRows
    split
    · exact ⟨le_rfl, rfl⟩
    rw [ends_bind]
    refine (l.relax hs hactive).mono (fun b u hb hu => ?_) fun _ => id
    obtain ⟨⟨hlp, hit⟩, hmay⟩ := hu
    cases b with
    | false =>
      obtain ⟨hp, -⟩ := k.leave hb
      have := ih (s := u) (n := n) (by rw [hp, hlp]; exact hs) hn
        fun i' hi' => hlp ▸ ha i' (List.mem_cons_of_mem _ hi')
      simp only [Bool.false_eq_true, if_false]
      rwa [hlp, hit] at this
    | true =>
      obtain ⟨r, hr, hk⟩ := Model.mem_activeRows.mp hactive
      rw [← hlp] at hr
      obtain ⟨m, hm⟩ : ∃ m, Returns (Model.relaxRow i) u.lp () m :=
        ⟨_, Model.returns_relaxRow.mpr ⟨r, hr, hk, rfl⟩⟩
      simp only [if_true, ends_bind, Action.ends_onModel, Action.ends_note, hm.ends]
      have hq := k.relax hs hb hm
      refine Ends.mono (ih hq hn fun i' hi' => ?_) (fun r t _ ht => ?_) fun _ => id
      · obtain ⟨r', hr', hk'⟩ := Model.mem_activeRows.mp (ha i' (List.mem_cons_of_mem _ hi'))
        obtain ⟨r, -, -, rfl⟩ := Model.returns_relaxRow.mp hm
        refine Model.mem_activeRows.mpr ⟨r', ?_, hk'⟩
        have hne : i ≠ i' := by
          rintro rfl
          exact hi hi'
        rw [List.getElem?_set_ne hne, hlp]
        exact hr'
      · have := Model.toGo_relax hm (hmay rfl)
        rw [hlp] at this
        have hle : t.lp.toGo may + r ≤ m.toGo may + (n + 1) := ht.1
        exact ⟨by omega, ht.2.trans hit⟩

/-- At a point that leaves a column open an iteration is not stuck, and has less to go after it. -/
theorem iterate_ends (k : Keeps p rule base pass point)
    (l : Live p rule base pass point fresh may bad) (hp : p.rounding = .perColumn rule)
    (hs : point s.problem s.lp) (hf : fresh s.problem s.lp) (ha : s.lp.activeColumns ≠ []) :
    Ends (iterate p) s (fun st t => (st = .optimal → fresh t.problem t.lp) ∧
      t.lp.toGo may < s.lp.toGo may ∧ t.iterations = s.iterations + 1) bad := by
  have after {u v : Run P K} (hb : base u.problem u.lp) (hu : u.Agree v)
      (hgo : v.lp.toGo may < s.lp.toGo may) (hit : v.iterations = s.iterations + 1) :
      Ends (resolve p) v (fun st t => (st = .optimal → fresh t.problem t.lp) ∧
        t.lp.toGo may < s.lp.toGo may ∧ t.iterations = s.iterations + 1) bad := by
    rw [← hu.1, ← hu.2] at hb
    simp only [resolve, report, ends_bind, Action.ends_model, Action.ends_note, ends_pure]
    refine (l.resolve hb).mono (fun _ t _ ht => ?_) fun _ => id
    exact ⟨ht.1, ht.2.1.trans_lt hgo, ht.2.2.trans hit⟩
  simp only [iterate, round, relax, hp, beginIteration, ends_bind, Action.ends_model, ends_modify,
    ends_get, ends_pure]
  refine Ends.mono
    (roundColumns_ends k l (k.enter hs) (Model.nodup_positions _ _) fun _ => id)
    (fun rounded t₁ h₁ ht₁ => ?_) fun _ => id
  split
  · next hr =>
    subst hr
    obtain ⟨hp₁, hm₁⟩ := (roundColumns_idle k h₁).2 rfl
    have hm₁ : t₁.lp = s.lp := hm₁
    have hs₁ : point t₁.problem t₁.lp := by
      rw [hp₁, hm₁]
      exact hs
    simp only [ends_bind, Action.ends_model, Action.ends_note]
    refine (relaxRows_ends k l hs₁ (Model.nodup_positions _ _) fun _ => id).mono
      (fun relaxed t₂ h₂ ht₂ => ?_) fun _ => id
    rw [hm₁] at ht₂
    split
    · next hz =>
      obtain rfl := hz.2
      have hcolumns := roundColumns_vain k h₁
      have hrows := relaxRows_vain k l.limit h₂
      refine (l.moves hs hf ha hcolumns fun i hi => ?_).elim
      obtain ⟨u, v, hu, hv⟩ := hrows i (hm₁ ▸ hi)
      exact ⟨u, v, Run.Agree.trans ⟨hp₁, hm₁⟩ hu, hv⟩
    · next hz =>
      refine after (k.exit (k.enter (relaxRows_keeps k h₂ hs₁))) (by exact ⟨rfl, rfl⟩) ?_ ?_
      · have := ht₂.1
        have hpos : relaxed ≠ 0 := fun h => hz ⟨trivial, h⟩
        show t₂.lp.toGo may < _
        omega
      · exact ht₂.2.trans ht₁.2
  · next hr =>
    simp only [ends_bind, ends_pure, Action.ends_note]
    rw [if_neg fun hn => hr hn.1]
    refine after (k.exit (roundColumns_keeps k h₁ (k.enter hs))) (by exact ⟨rfl, rfl⟩) ?_ ht₁.2
    have := ht₁.1
    show t₁.lp.toGo may < _
    have hpos : rounded ≠ 0 := hr
    simp only at this
    omega

variable [Backend K]

theorem loop_ends (k : Keeps p rule base pass point) (l : Live p rule base pass point fresh may bad)
    (hp : p.rounding = .perColumn rule) (hstop : p.stop = StopRule.allFixed.apply) {passes : Nat}
    (hs : point s.problem s.lp) (hf : fresh s.problem s.lp) :
    Ends (loop p (iterate p) passes) s
      (fun out t => (out.status = .optimal ∨ out.status = .infeasible) ∧
        t.iterations ≤ s.iterations + s.lp.toGo may)
      fun e => bad e ∨ e = .unfinished ∧ passes ≤ s.lp.toGo may := by
  induction passes generalizing s with
  | zero => exact .inr ⟨rfl, Nat.zero_le _⟩
  | succ passes ih =>
    simp only [loop, hstop, StopRule.apply, ends_bind, Action.ends_model, ends_pure]
    split
    · next hall =>
      have hall : s.lp.activeColumns = [] := by simpa using hall
      simp only [finish, ends_bind, Action.ends_model, Action.ends_note, ends_get, ends_pure]
      refine (l.setSolution hs hall).mono (fun _ t _ ht => ?_) fun _ => .inl
      obtain ⟨x, hx⟩ := Option.isSome_iff_exists.mp (l.solved hs)
      have hobj : t.lp.objective = .ok x.objective := by
        rw [ht.1]
        simp [Model.objective, Model.lastSolution, hx, pure, bind, Except.bind, Except.pure]
      rw [ends_lift_ok hobj]
      exact ⟨.inl trivial, by rw [ht.2]; exact Nat.le_add_right _ _⟩
    · next hall =>
      have hall : s.lp.activeColumns ≠ [] := by simpa using hall
      rw [ends_bind]
      refine (iterate_ends k l hp hs hf hall).mono (fun st t h ht => ?_) fun _ => .inl
      split
      · refine (ih (iterate_keeps k hp h hs) (ht.1 rfl)).mono (fun out u _ hu => ?_)
          fun e he => ?_
        · exact ⟨hu.1, by have := hu.2; omega⟩
        · exact he.imp id fun hu => ⟨hu.1, by have := hu.2; omega⟩
      · simp only [giveUp, ends_bind, Action.ends_model, Action.ends_note, ends_get, ends_modify,
          ends_pure]
        exact ⟨.inr trivial, by have := ht.2; show t.iterations ≤ _; omega⟩

theorem run_ends (k : Keeps p rule base pass point) (l : Live p rule base pass point fresh may bad)
    (hp : p.rounding = .perColumn rule) (hstop : p.stop = StopRule.allFixed.apply)
    (hs : base s.problem s.lp) :
    Ends (run p) s
      (fun out t => (out.status = .optimal ∨ out.status = .infeasible) ∧
        t.iterations ≤ s.iterations + s.lp.toGo may)
      fun e => bad e ∨ e = .unfinished ∧ Backend.passes K ≤ s.lp.toGo may := by
  simp only [run, start, solve, report, ends_bind, Action.ends_model, Action.ends_note, ends_pure]
  refine (l.solve hs).mono (fun st t h ht => ?_) fun _ => .inl
  split
  · have hq := k.solve hs h
    have hfresh := ht.1 rfl
    refine Ends.mono (loop_ends k l hp hstop hq hfresh) (fun out u _ hu => ?_) fun e he => ?_
    · have := hu.2
      rw [show _ = s.lp.toGo may from ht.2.1, show _ = s.iterations from ht.2.2] at this
      exact ⟨hu.1, this⟩
    · exact he.imp id fun hu => ⟨hu.1, ht.2.1 ▸ hu.2⟩
  · simp only [giveUp, ends_bind, Action.ends_model, Action.ends_note, ends_modify, ends_pure]
    exact ⟨.inr trivial, by have := ht.2; show t.iterations ≤ _; omega⟩

/-- The run of a problem from `s` comes to `t` with an optimal point of the model. -/
inductive Visits (p : Policies P K) (s : Run P K) : Run P K → Prop
  | start {u v t : Run P K} : Returns Roundable.check s none u → Returns p.init u () v →
    Returns (solve p) v .optimal t → Visits p s t
  | next {t u v : Run P K} : Visits p s t → Returns p.stop t false u →
    Returns (iterate p) u .optimal v → Visits p s v

theorem Visits.exists_start (h : Visits p s t) :
    ∃ u v, Returns Roundable.check s none u ∧ Returns p.init u () v := by
  induction h with
  | start hc hi => exact ⟨_, _, hc, hi⟩
  | next _ _ _ ih => exact ih

theorem returns_goOn (h : Returns StopRule.allFixed.apply s false t) :
    s = t ∧ s.lp.activeColumns ≠ [] := by
  simp only [StopRule.apply, returns_bind, Action.returns_model, returns_pure] at h
  obtain ⟨_, _, ⟨rfl, rfl⟩, hb, rfl⟩ := h
  exact ⟨rfl, by simpa using hb⟩

theorem Visits.keeps (k : Keeps p rule base pass point) (hp : p.rounding = .perColumn rule)
    (hstop : p.stop = StopRule.allFixed.apply)
    (hs : ∀ u v, Returns Roundable.check s none u → Returns p.init u () v → base v.problem v.lp)
    (h : Visits p s t) : point t.problem t.lp := by
  induction h with
  | start hc hi h =>
    obtain ⟨u, hu, hpu, hmu⟩ := returns_solve h
    exact hpu ▸ hmu ▸ k.solve (hs _ _ hc hi) hu
  | next _ hst h ih =>
    rw [hstop] at hst
    obtain ⟨rfl, -⟩ := returns_goOn hst
    exact iterate_keeps k hp h ih

theorem Visits.holds (k : Keeps p rule base pass point)
    (l : Live p rule base pass point fresh may bad) (hp : p.rounding = .perColumn rule)
    (hstop : p.stop = StopRule.allFixed.apply)
    (hs : ∀ u v, Returns Roundable.check s none u → Returns p.init u () v → base v.problem v.lp)
    (h : Visits p s t) : point t.problem t.lp ∧ fresh t.problem t.lp := by
  refine ⟨h.keeps k hp hstop hs, ?_⟩
  induction h with
  | start hc hi h =>
    obtain ⟨u, hu, hpu, hmu⟩ := returns_solve h
    exact hpu ▸ hmu ▸ ((ends_iff.mp (l.solve (hs _ _ hc hi))).1 _ _ hu).1 rfl
  | next ht hst h ih =>
    rw [hstop] at hst
    obtain ⟨rfl, hopen⟩ := returns_goOn hst
    exact ((ends_iff.mp (iterate_ends k l hp (ht.keeps k hp hstop hs) ih hopen)).1 _ _ h).1 rfl

end Engine

end LPRounding
