import LPRounding.Proofs.Exact
import LPRounding.Proofs.Returns
import LPRounding.LP.Model

/-!
The points of a model, and what its edits leave of a model. `Model.Admits` says which points meet
the bounds and the kept rows; these are the points of the system that the solver is given.
-/

namespace LPRounding

variable {K : Type}

/-- A fixed column admits its constant alone. -/
def Column.Admits [Scalar K] (c : Column K) (x : K) : Prop :=
  match c.fixed with
  | some v => x = v
  | none => c.bound.Admits x

namespace Model

/-- The constant of a column, once it is fixed. -/
def fixedAt (m : Model K) (j : Nat) : Option K := m.columns[j]?.bind Column.fixed

structure Admits [Scalar K] (m : Model K) (x : List K) : Prop where
  length : x.length = m.columns.length
  columns : ∀ (j : Nat) c v, m.columns[j]? = some c → x[j]? = some v → c.Admits v
  rows : ∀ r ∈ m.rows, r.relaxed = false → r.bound.Admits (weigh r.coefs x)

/-- The last solve left a point of the model. -/
def Solved [Scalar K] (m : Model K) : Prop := ∃ s, m.solution = some s ∧ m.Admits s.values

/-- What fixing, relaxing, appending and solving make of a model. -/
structure Grown (m₀ m : Model K) : Prop where
  columns : m.columns.map (fun c => (c.cost, c.bound)) =
    m₀.columns.map fun c => (c.cost, c.bound)
  rows : ∀ (i : Nat) r₀, m₀.rows[i]? = some r₀ →
    ∃ r, m.rows[i]? = some r ∧ r.bound = r₀.bound ∧ r.coefs = r₀.coefs

end Model

/-- All that is asked of a solver here: what it reports as a point is one. -/
def Solver.Sound [Scalar K] (solver : Solver K) : Prop :=
  ∀ s x c, solver s = .optimal x c → s.Feasible x

set_option linter.unusedSectionVars false

section Editing

variable [Scalar K]

namespace Model

variable {m m₀ m' : Model K} {j : Nat}

/-- Everything that a solve can do. -/
theorem returns_solve {solver : Solver K} {st : Status} (h : Returns (solve solver) m st m') :
    ∃ s, m' = { m with solution := s } ∧
      ((st = .optimal ∧ m.columns = [] ∧ m.admitsNothing = true ∧
          s = some { values := [], objective := 0 }) ∨
        (st = .optimal ∧ m.columns ≠ [] ∧ ∃ x c, solver m.system = .optimal x c ∧
          s = some { values := x, objective := m.signed c }) ∨
        (st ≠ .optimal ∧ s = none)) := by
  unfold solve at h
  simp only [returns_bind, returns_get] at h
  obtain ⟨_, _, ⟨rfl, rfl⟩, h⟩ := h
  split at h
  · simp at h
  simp only [returns_bind, returns_set, exists_eq_left'] at h
  obtain ⟨-, h⟩ := h
  split at h
  · next hc =>
    replace hc : m.columns = [] := by simpa using hc
    split at h
    · next ha =>
      simp only [returns_bind, returns_set, exists_eq_left', returns_pure] at h
      obtain ⟨-, rfl, rfl⟩ := h
      exact ⟨_, rfl, .inl ⟨rfl, hc, ha, rfl⟩⟩
    · obtain ⟨rfl, rfl⟩ := returns_pure.mp h
      exact ⟨_, rfl, .inr (.inr ⟨by simp, rfl⟩)⟩
  · next hc =>
    replace hc : m.columns ≠ [] := by simpa using hc
    split at h
    · next x c hv =>
      simp only [returns_bind, returns_set, exists_eq_left', returns_pure] at h
      obtain ⟨-, rfl, rfl⟩ := h
      exact ⟨_, rfl, .inr (.inl ⟨rfl, hc, x, c, hv, rfl⟩)⟩
    · obtain ⟨rfl, rfl⟩ := returns_pure.mp h
      exact ⟨_, rfl, .inr (.inr ⟨by simp, rfl⟩)⟩
    · obtain ⟨rfl, rfl⟩ := returns_pure.mp h
      exact ⟨_, rfl, .inr (.inr ⟨by simp, rfl⟩)⟩
    · simp at h
    · simp at h

theorem returns_fixColumn {v : K} {u : Unit} :
    Returns (fixColumn j v) m u m' ↔ ∃ c, m.columns[j]? = some c ∧ c.fixed = none ∧
      m' = { m with columns := m.columns.set j { c with fixed := some v } } := by
  unfold fixColumn
  simp only [returns_bind, returns_get, returns_lift, column]
  constructor
  · rintro ⟨_, _, ⟨rfl, rfl⟩, c, _, ⟨hc, rfl⟩, h⟩
    split at hc <;> simp at hc
    subst hc
    split at h <;> simp at h
    exact ⟨_, ‹_›, ‹_›, h.symm⟩
  · rintro ⟨c, hc, hf, rfl⟩
    exact ⟨m, m, ⟨rfl, rfl⟩, c, m, ⟨by simp [hc], rfl⟩, by simp [hf]⟩

theorem returns_relaxRow {u : Unit} :
    Returns (relaxRow j) m u m' ↔ ∃ r, m.rows[j]? = some r ∧ r.relaxed = false ∧
      m' = { m with rows := m.rows.set j { r with relaxed := true } } := by
  unfold relaxRow
  simp only [returns_bind, returns_get, returns_lift, row]
  constructor
  · rintro ⟨_, _, ⟨rfl, rfl⟩, r, _, ⟨hr, rfl⟩, h⟩
    split at hr <;> simp at hr
    subst hr
    split at h <;> simp at h
    next hk => exact ⟨_, ‹_›, by simpa using hk, h.symm⟩
  · rintro ⟨r, hr, hk, rfl⟩
    exact ⟨m, m, ⟨rfl, rfl⟩, r, m, ⟨by simp [hr], rfl⟩, by simp [hk]⟩

theorem returns_appendRow {r : Row K} {i : Nat} :
    Returns (appendRow r) m i m' ↔
      m.rows.length = i ∧ { m with rows := m.rows ++ [r] } = m' := by
  unfold appendRow
  simp only [returns_bind, returns_get, returns_set, returns_pure]
  constructor
  · rintro ⟨_, _, ⟨rfl, rfl⟩, _, _, rfl, rfl, rfl⟩
    exact ⟨rfl, rfl⟩
  · rintro ⟨rfl, rfl⟩
    exact ⟨m, m, ⟨rfl, rfl⟩, ⟨⟩, _, rfl, rfl, rfl⟩

theorem fixedAt_set {c : Column K} {v : K} (hc : m.columns[j]? = some c) (i : Nat) :
    ({ m with columns := m.columns.set j { c with fixed := some v } } : Model K).fixedAt i =
      if i = j then some v else m.fixedAt i := by
  have hj := (List.getElem?_eq_some_iff.mp hc).1
  unfold fixedAt
  by_cases hi : i = j
  · subst i
    simp [hj]
  · simp [List.getElem?_set_ne (Ne.symm hi), hi]

theorem mem_positions {α : Type} {test : α → Bool} {xs : List α} :
    j ∈ positions test xs ↔ ∃ x, xs[j]? = some x ∧ test x = true := by
  simp only [positions, List.mem_map, List.mem_filter, Prod.exists, exists_eq_right]
  exact exists_congr fun x => and_congr_left fun _ => List.mk_mem_zipIdx_iff_getElem?

theorem ascending_positions {α : Type} (test : α → Bool) (xs : List α) :
    (positions test xs).Pairwise (· < ·) := by
  have hall : (xs.zipIdx.map Prod.snd).Pairwise (· < ·) := by
    rw [List.zipIdx_map_snd]
    exact List.pairwise_lt_range'
  exact hall.sublist (List.filter_sublist.map _)

theorem nodup_positions {α : Type} (test : α → Bool) (xs : List α) : (positions test xs).Nodup :=
  (ascending_positions test xs).imp Nat.ne_of_lt

theorem mem_activeColumns :
    j ∈ m.activeColumns ↔ ∃ c, m.columns[j]? = some c ∧ c.fixed = none := by
  simp [activeColumns, mem_positions, Column.isActive]

theorem mem_activeColumns_iff :
    j ∈ m.activeColumns ↔ j < m.columns.length ∧ m.fixedAt j = none := by
  rw [mem_activeColumns]
  constructor
  · rintro ⟨c, hc, hf⟩
    exact ⟨(List.getElem?_eq_some_iff.mp hc).1, by simp [fixedAt, hc, hf]⟩
  · rintro ⟨hj, hf⟩
    have hc := List.getElem?_eq_getElem hj
    exact ⟨_, hc, by simpa [fixedAt, hc] using hf⟩

theorem mem_activeRows : j ∈ m.activeRows ↔ ∃ r, m.rows[j]? = some r ∧ r.relaxed = false := by
  simp [activeRows, mem_positions]

theorem mem_activeColumns_fix {v : K} (h : Returns (fixColumn j v) m () m') {i : Nat} :
    i ∈ m'.activeColumns ↔ i ∈ m.activeColumns ∧ i ≠ j := by
  obtain ⟨c, hc, -, rfl⟩ := returns_fixColumn.mp h
  rw [mem_activeColumns_iff, mem_activeColumns_iff, fixedAt_set hc, List.length_set]
  by_cases hi : i = j <;> simp [hi]

theorem mem_activeRows_relax (h : Returns (relaxRow j) m () m') {i : Nat} :
    i ∈ m'.activeRows ↔ i ∈ m.activeRows ∧ i ≠ j := by
  obtain ⟨r, hr, -, rfl⟩ := returns_relaxRow.mp h
  have hlt := (List.getElem?_eq_some_iff.mp hr).1
  simp only [mem_activeRows]
  by_cases hi : i = j
  · subst i
    simp [hlt]
  · simp [List.getElem?_set_ne (Ne.symm hi), hi]

theorem length_of_missing {xs ys : List Nat} (hx : xs.Nodup) (hy : ys.Nodup) (hj : j ∈ xs)
    (h : ∀ i, i ∈ ys ↔ i ∈ xs ∧ i ≠ j) : ys.length + 1 = xs.length := by
  have hcons : (j :: ys).Nodup := List.nodup_cons.mpr ⟨fun hm => ((h j).mp hm).2 rfl, hy⟩
  have hperm : (j :: ys).Perm xs := (List.perm_ext_iff_of_nodup hcons hx).mpr fun i => by
    by_cases hi : i = j <;> simp [hi, h, hj]
  simpa using hperm.length_eq

theorem length_activeColumns_fix {v : K} (h : Returns (fixColumn j v) m () m') :
    m'.activeColumns.length + 1 = m.activeColumns.length := by
  obtain ⟨c, hc, hf, -⟩ := returns_fixColumn.mp h
  exact length_of_missing (nodup_positions _ _) (nodup_positions _ _)
    (mem_activeColumns.mpr ⟨c, hc, hf⟩) fun i => mem_activeColumns_fix h

theorem length_activeRows_relax (h : Returns (relaxRow j) m () m') :
    m'.activeRows.length + 1 = m.activeRows.length := by
  obtain ⟨r, hr, hk, -⟩ := returns_relaxRow.mp h
  exact length_of_missing (nodup_positions _ _) (nodup_positions _ _)
    (mem_activeRows.mpr ⟨r, hr, hk⟩) fun i => mem_activeRows_relax h

theorem fixedAt_of_noActive (h : m.activeColumns = []) (hj : j < m.columns.length) :
    ∃ v, m.fixedAt j = some v := by
  rw [← Option.isSome_iff_exists, Option.isSome_iff_ne_none]
  intro hn
  simpa [h] using mem_activeColumns_iff.mpr ⟨hj, hn⟩

@[refl] theorem Grown.refl (m : Model K) : Grown m m :=
  ⟨rfl, fun _ r h => ⟨r, h, rfl, rfl⟩⟩

theorem Grown.solution (h : Grown m₀ m) (s : Option (Solution K)) :
    Grown m₀ { m with solution := s } := ⟨h.columns, h.rows⟩

theorem Grown.fix (h : Grown m₀ m) {c : Column K} {v : K} (hc : m.columns[j]? = some c) :
    Grown m₀ { m with columns := m.columns.set j { c with fixed := some v } } := by
  refine ⟨?_, h.rows⟩
  rw [← h.columns]
  apply List.ext_getElem?
  intro i
  by_cases hi : i = j
  · obtain ⟨hj, rfl⟩ := List.getElem?_eq_some_iff.mp hc
    subst i
    simp [hj]
  · simp [List.getElem?_set_ne (Ne.symm hi)]

theorem Grown.relax (h : Grown m₀ m) {r : Row K} (hr : m.rows[j]? = some r) :
    Grown m₀ { m with rows := m.rows.set j { r with relaxed := true } } := by
  refine ⟨h.columns, fun i r₀ h₀ => ?_⟩
  obtain ⟨r', hr', hb, hc⟩ := h.rows i r₀ h₀
  by_cases hi : i = j
  · subst i
    obtain rfl := Option.some.inj (hr'.symm.trans hr)
    exact ⟨_, List.getElem?_set_self (List.getElem?_eq_some_iff.mp hr).1, hb, hc⟩
  · exact ⟨r', by rw [List.getElem?_set_ne (Ne.symm hi)]; exact hr', hb, hc⟩

theorem Grown.append (h : Grown m₀ m) (r : Row K) :
    Grown m₀ { m with rows := m.rows ++ [r] } := by
  refine ⟨h.columns, fun i r₀ h₀ => ?_⟩
  obtain ⟨r', hr', hb, hc⟩ := h.rows i r₀ h₀
  exact ⟨r', by rw [List.getElem?_append_left (List.getElem?_eq_some_iff.mp hr').1]; exact hr',
    hb, hc⟩

theorem Admits.relax {x : List K} (h : m.Admits x) (r : Row K) :
    ({ m with rows := m.rows.set j { r with relaxed := true } } : Model K).Admits x := by
  refine ⟨h.length, h.columns, fun r' hr' hk => ?_⟩
  rcases List.mem_or_eq_of_mem_set hr' with hm | rfl
  · exact h.rows r' hm hk
  · cases hk

theorem Admits.fix {x : List K} {c : Column K} {v : K} (h : m.Admits x) (hx : x[j]? = some v) :
    ({ m with columns := m.columns.set j { c with fixed := some v } } : Model K).Admits x := by
  refine ⟨h.length.trans List.length_set.symm, fun i c' w hc' hw => ?_, h.rows⟩
  by_cases hi : j = i
  · subst hi
    obtain rfl := Option.some.inj (hx.symm.trans hw)
    rw [List.getElem?_set_self (by simpa using (List.getElem?_eq_some_iff.mp hc').1)] at hc'
    obtain rfl := Option.some.inj hc'
    rfl
  · exact h.columns i c' w (by rwa [List.getElem?_set_ne hi] at hc') hw

theorem Solved.relax (h : m.Solved) (r : Row K) :
    ({ m with rows := m.rows.set j { r with relaxed := true } } : Model K).Solved := by
  obtain ⟨s, hs, ha⟩ := h
  exact ⟨s, hs, ha.relax r⟩

theorem Grown.length (h : Grown m₀ m) : m.columns.length = m₀.columns.length := by
  simpa using congrArg List.length h.columns

theorem Grown.row (h : Grown m₀ m) {i : Nat} {r r₀ : Row K} (h₀ : m₀.rows[i]? = some r₀)
    (hr : m.rows[i]? = some r) : r.bound = r₀.bound ∧ r.coefs = r₀.coefs := by
  obtain ⟨r', hr', hb, hc⟩ := h.rows i r₀ h₀
  obtain rfl := Option.some.inj (hr.symm.trans hr')
  exact ⟨hb, hc⟩

theorem Grown.met (h : Grown m₀ m) {x : List K} (hx : m.Admits x) {i : Nat} {r r₀ : Row K}
    (h₀ : m₀.rows[i]? = some r₀) (hr : m.rows[i]? = some r) (hk : r.relaxed = false) :
    r₀.bound.Admits (weigh r₀.coefs x) := by
  obtain ⟨hb, hc⟩ := h.row h₀ hr
  rw [← hb, ← hc]
  exact hx.rows r (List.mem_of_getElem? hr) hk

theorem Grown.column (h : Grown m₀ m) {c : Column K} (hc : m.columns[j]? = some c) :
    ∃ c₀, m₀.columns[j]? = some c₀ ∧ c.cost = c₀.cost ∧ c.bound = c₀.bound := by
  have hj := congrArg (·[j]?) h.columns
  simp only [List.getElem?_map, hc, Option.map_some] at hj
  obtain ⟨c₀, h₀, heq⟩ := Option.map_eq_some_iff.mp hj.symm
  exact ⟨c₀, h₀, (congrArg Prod.fst heq).symm, (congrArg Prod.snd heq).symm⟩

end Model

end Editing

variable [Field K] [LinearOrder K] [IsStrictOrderedRing K] [FloorRing K]

@[simp] theorem weigh_eq (coefs : List (Nat × K)) (x : List K) :
    weigh coefs x = (coefs.map fun p => p.2 * x.getD p.1 0).sum := by
  simp [weigh]

theorem weigh_neg (coefs : List (Nat × K)) (x : List K) :
    weigh (coefs.map fun (j, c) => (j, -c)) x = -weigh coefs x := by
  simp only [weigh_eq, List.map_map]
  induction coefs with
  | nil => simp
  | cons p ps ih =>
    simp only [List.map_cons, List.sum_cons, Function.comp_apply] at ih ⊢
    rw [ih]
    ring

theorem within_bounds_iff (c : Column K) (x : K) : Within c.bounds x ↔ c.Admits x := by
  unfold Within Column.bounds Column.Admits
  cases c.fixed with
  | some v => simpa using (le_antisymm_iff.trans and_comm).symm
  | none =>
    simp only [Bound.floor?, Bound.ceiling?, Bound.Admits]
    cases c.bound.kind <;> simp
    exact (le_antisymm_iff.trans and_comm).symm

theorem Row.met_iff (r : Row K) (x : List K) :
    ((∀ c ∈ r.limits, weigh c.coefs x ≤ c.side) ∧ ∀ c ∈ r.equations, weigh c.coefs x = c.side) ↔
      r.bound.Admits (weigh r.coefs x) := by
  unfold Row.limits Row.equations Bound.Admits Bound.ceiling? Bound.floor?
  cases r.bound.kind <;> simp [-weigh_eq, weigh_neg, and_comm]

namespace Model

variable {m m₀ m' : Model K} {j : Nat}

theorem mem_keptRows {r : Row K} : r ∈ m.keptRows ↔ r ∈ m.rows ∧ r.relaxed = false := by
  simp [keptRows]

/-- The solver is given exactly the points of the model. -/
theorem feasible_iff_admits {x : List K} : m.system.Feasible x ↔ m.Admits x := by
  constructor
  · intro h
    refine ⟨by simpa [system] using h.length, ?_, ?_⟩
    · intro j c v hc hv
      exact (within_bounds_iff c v).mp (h.bounds j c.bounds v (by simp [system, hc]) hv)
    · intro r hr hk
      have hm := mem_keptRows.mpr ⟨hr, hk⟩
      exact (r.met_iff x).mp
        ⟨fun c hc => h.atMost c (List.mem_flatMap.mpr ⟨r, hm, hc⟩),
          fun c hc => h.equal c (List.mem_flatMap.mpr ⟨r, hm, hc⟩)⟩
  · intro h
    have hrow (r) (hr : r ∈ m.keptRows) := (r.met_iff x).mpr
      (h.rows r (mem_keptRows.mp hr).1 (mem_keptRows.mp hr).2)
    refine ⟨by simpa [system] using h.length, ?_, ?_, ?_⟩
    · intro j b v hb hv
      obtain ⟨c, hc, rfl⟩ : ∃ c, m.columns[j]? = some c ∧ c.bounds = b := by
        simpa [system] using hb
      exact (within_bounds_iff c v).mpr (h.columns j c v hc hv)
    · intro c hc
      obtain ⟨r, hr, hc⟩ := List.mem_flatMap.mp hc
      exact (hrow r hr).1 c hc
    · intro c hc
      obtain ⟨r, hr, hc⟩ := List.mem_flatMap.mp hc
      exact (hrow r hr).2 c hc

theorem admits_nil (hc : m.columns = []) (h : m.admitsNothing = true) : m.Admits [] := by
  refine ⟨by simp [hc], by simp [hc], ?_⟩
  intro r hr hk
  have hz : weigh r.coefs ([] : List K) = 0 := by simp
  have ha := List.all_eq_true.mp h r (mem_keptRows.mpr ⟨hr, hk⟩)
  rw [hz]
  unfold Bound.Admits
  cases hb : r.bound.kind <;>
    simp [Bound.floor?, Bound.ceiling?, hb] at ha ⊢
  · exact ha
  · exact ha
  · exact ha
  · exact le_antisymm ha.2 ha.1

theorem solved_of_solve {solver : Solver K} (hs : solver.Sound)
    (h : Returns (solve solver) m .optimal m') : m'.Solved := by
  obtain ⟨s, rfl, ⟨-, hc, ha, rfl⟩ | ⟨-, -, x, c, hx, rfl⟩ | ⟨hn, -⟩⟩ := returns_solve h
  · have hp := admits_nil hc ha
    exact ⟨_, rfl, hp.length, hp.columns, hp.rows⟩
  · have hp := feasible_iff_admits.mp (hs _ x c hx)
    exact ⟨_, rfl, hp.length, hp.columns, hp.rows⟩
  · exact absurd rfl hn

theorem positions_map {α β : Type} (test : β → Bool) (f : α → β) (xs : List α) :
    positions test (xs.map f) = positions (fun x => test (f x)) xs := by
  simp only [positions, List.zipIdx_map, List.filter_map, List.map_map]
  rfl

theorem positions_true {α : Type} (xs : List α) :
    positions (fun _ => true) xs = List.range xs.length := by
  simp [positions, List.range_eq_range']

theorem counts_iff {e : Nat × K} :
    m.counts e = true ↔ e.2 ≠ 0 ∧ e.1 < m.columns.length ∧ m.fixedAt e.1 = none := by
  rw [← mem_activeColumns_iff, mem_activeColumns]
  simp [counts, Option.any_eq_true, Column.isActive]

theorem Admits.fixed {x : List K} {v w : K} (h : m.Admits x) (hf : m.fixedAt j = some v)
    (hx : x[j]? = some w) : w = v := by
  obtain ⟨c, hc, hv⟩ := Option.bind_eq_some_iff.mp hf
  simpa [Column.Admits, hv] using h.columns j c w hc hx

theorem columnValue_eq_ok {v : K} :
    m.columnValue j = .ok v ↔
      j < m.columns.length ∧ ∃ s, m.solution = some s ∧ s.values[j]? = some v := by
  unfold columnValue
  simp only [ok_bind_iff, column, lastSolution, Solution.value]
  constructor
  · rintro ⟨c, hc, s, hs, hv⟩
    split at hc <;> simp at hc
    next h => split at hs <;> simp at hs; subst hs; split at hv <;> simp at hv; subst hv
              exact ⟨(List.getElem?_eq_some_iff.mp h).1, _, ‹_›, ‹_›⟩
  · rintro ⟨hj, s, hs, hv⟩
    exact ⟨m.columns[j], by simp [hj], s, by simp [hs], by simp [hv]⟩

theorem eq_getD_of_columnValue {s : Solution K} {v : K} (hs : m.solution = some s)
    (h : m.columnValue j = .ok v) : v = s.values.getD j 0 := by
  obtain ⟨-, s', hs', hv⟩ := columnValue_eq_ok.mp h
  obtain rfl := Option.some.inj (hs.symm.trans hs')
  rw [List.getD_eq_getElem?_getD, hv, Option.getD_some]

theorem rowDegree_eq_ok {d : Nat} :
    m.rowDegree j = .ok d ↔
      ∃ r, m.rows[j]? = some r ∧ (r.coefs.filter m.counts).length = d := by
  unfold rowDegree
  simp only [ok_bind_iff, row]
  constructor
  · rintro ⟨r, hr, h⟩
    split at hr <;> simp at hr
    subst hr
    exact ⟨_, ‹_›, by simpa [pure, Except.pure] using h⟩
  · rintro ⟨r, hr, rfl⟩
    exact ⟨r, by simp [hr], rfl⟩

theorem rowSum_eq_ok {v : K} (h : m.rowSum j = .ok v) :
    ∃ s r, m.solution = some s ∧ m.rows[j]? = some r ∧
      v = ((r.coefs.filter m.counts).map fun p => s.values.getD p.1 0).sum := by
  unfold rowSum at h
  simp only [ok_bind_iff, row, lastSolution] at h
  obtain ⟨s, hs, r, hr, xs, hx, hv⟩ := h
  split at hs <;> simp at hs
  subst hs
  split at hr <;> simp at hr
  subst hr
  refine ⟨_, _, ‹_›, ‹_›, ?_⟩
  obtain rfl := Except.ok.inj hv
  rw [Scalar.sum_eq, eq_map_of_mapM _ hx]
  rintro ⟨i, c⟩ y hy
  unfold Solution.value at hy
  split at hy <;> simp at hy
  subst hy
  simp [*]

end Model

end LPRounding
