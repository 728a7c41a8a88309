import LPRounding.Proofs.LP.Session

/-!
Readings of a solution. The last solve fixes what can be read: a column that came later has no value
there, and a row cannot be summed while such a column takes part in it. Nothing else makes a reading
fail where there is a solution.
-/

namespace LPRounding

set_option linter.unusedSectionVars false

variable {K : Type}

theorem mapM_ok_or {ε α β : Type} (f : α → Except ε β) (xs : List α) :
    (∀ x ∈ xs, ∃ y, f x = .ok y) ∨ ∃ x ∈ xs, ∃ e, f x = .error e ∧ xs.mapM f = .error e := by
  induction xs with
  | nil => exact .inl (by simp)
  | cons x xs ih =>
    rw [List.mapM_cons]
    cases hx : f x with
    | error e => exact .inr ⟨x, List.mem_cons_self, e, hx, rfl⟩
    | ok y =>
      rcases ih with hall | ⟨z, hz, e, he, herr⟩
      · exact .inl (List.forall_mem_cons.mpr ⟨⟨y, hx⟩, hall⟩)
      · exact .inr ⟨z, List.mem_cons_of_mem _ hz, e, he, by rw [herr]; rfl⟩

/-- The columns that came after the last solve that was answered. -/
def lateColumns (log : List (Exchange K)) : List Nat :=
  (log.rtakeWhile fun x => x.status?.isNone).filterMap Exchange.column?

theorem lateColumns_concat {log : List (Exchange K)} {x : Exchange K} (hx : x.status? = none) :
    lateColumns (log ++ [x]) = lateColumns log ++ x.column?.toList := by
  rw [lateColumns, List.rtakeWhile_concat, hx]
  cases hcolumn : x.column? <;> simp [lateColumns, hcolumn]

theorem lateColumns_solved {log : List (Exchange K)} {x : Exchange K} {st : Status}
    (hx : x.status? = some st) : lateColumns (log ++ [x]) = [] := by
  rw [lateColumns, List.rtakeWhile_concat, hx]
  rfl

variable [Scalar K]

namespace Model

/-- A solution lags behind by the late columns: it has the values of all others. -/
def Lagging (log : List (Exchange K)) (m : Model K) : Prop :=
  ∀ x, m.solution = some x →
    List.range x.values.length ++ lateColumns log = List.range m.columns.length

variable {log : List (Exchange K)} {m m' : Model K} {c : Command K} {r : Reply K}

theorem Lagging.mem_late {x : Solution K} (h : Lagging log m) (hx : m.solution = some x) {j : Nat}
    (hj : j < m.columns.length) : j ∈ lateColumns log ↔ x.values.length ≤ j := by
  have hrange := h x hx
  constructor
  · intro hlate
    have hnodup : (List.range x.values.length ++ lateColumns log).Nodup := hrange ▸ List.nodup_range
    by_contra hlt
    exact List.disjoint_of_nodup_append hnodup (List.mem_range.mpr (not_le.mp hlt)) hlate
  · intro hle
    have hmem : j ∈ List.range x.values.length ++ lateColumns log :=
      hrange ▸ List.mem_range.mpr hj
    exact (List.mem_append.mp hmem).resolve_left fun hlt => not_lt.mpr hle (List.mem_range.mp hlt)

theorem Lagging.silent (h : Lagging log m) {x : Exchange K} (hx : x.status? = none)
    (hcolumn : x.column? = none) (hcolumns : m'.columns.length = m.columns.length)
    (hsolution : m'.solution = m.solution) : Lagging (log ++ [x]) m' := by
  intro y hy
  rw [lateColumns_concat hx, hcolumn, Option.toList_none, List.append_nil, hcolumns]
  exact h y (hsolution ▸ hy)

theorem Lagging.change (h : Lagging log m) (hclear : c ≠ .clear) (hsolve : c ≠ .solve)
    (hm : Change c r m m') : Lagging (log ++ [⟨c, .ok r⟩]) m' := by
  cases hm with
  | clear => exact absurd rfl hclear
  | solve => exact absurd rfl hsolve
  | column =>
    intro x hx
    rw [lateColumns_concat rfl, ← List.append_assoc, h x hx]
    simp [Exchange.column?, List.range_succ]
  | row | coef | rename | direct | load | relax => exact h.silent rfl rfl rfl rfl
  | fix => exact h.silent rfl rfl (by simp) rfl
  | read hreads =>
    have hsilent := silent_of_reads (r := r) hreads
    exact h.silent hsilent.status hsilent.column rfl rfl

theorem Lagging.solve {solver : Solver K} {st : Status}
    (hlength : ∀ s x a, solver s = .optimal x a → x.length = s.bounds.length)
    (hm : Returns (Model.solve solver) m st m') :
    Lagging (log ++ [⟨.solve, .ok (.status st)⟩]) m' := by
  intro x hx
  rw [lateColumns_solved rfl, List.append_nil]
  obtain ⟨s, rfl, ⟨-, hnil, -, rfl⟩ | ⟨-, -, y, a, hy, rfl⟩ | ⟨-, rfl⟩⟩ := returns_solve hm
  · obtain rfl := Option.some.inj hx
    rw [hnil]
    rfl
  · obtain rfl := Option.some.inj hx
    rw [hlength _ _ _ hy]
    simp [system]
  · cases hx

theorem columnValue_of_none (h : m.solution = none) {j : Nat} (hj : j < m.columns.length) :
    m.columnValue j = .error (.noSolution m.name) := by
  simp [columnValue, column, lastSolution, h, hj, bind, Except.bind]

theorem rowValueAt_of_none (h : m.solution = none) (i : Int) :
    m.rowValueAt i = .error (.noSolution m.name) := by
  simp [rowValueAt, lastSolution, h, bind, Except.bind]

theorem rowSumAt_of_none (h : m.solution = none) (i : Int) :
    m.rowSumAt i = .error (.noSolution m.name) := by
  simp [rowSumAt, lastSolution, h, bind, Except.bind]

variable {x : Solution K}

theorem columnValue_of_some (h : m.solution = some x) {j : Nat} (hj : j < m.columns.length) :
    m.columnValue j = x.value j := by
  simp [columnValue, column, lastSolution, h, hj, bind, Except.bind]

variable {i : Nat} {row : Row K}

theorem rowValueAt_of_some (h : m.solution = some x) (hr : m.rows[i]? = some row) :
    m.rowValueAt i = do
      let terms ← row.coefs.mapM fun e => return e.2 * (← x.value e.1)
      return Scalar.sum terms := by
  have hi : m.rowId i = .ok i := rowId_eq_ok.mpr ⟨rfl, (List.getElem?_eq_some_iff.mp hr).1⟩
  rw [rowValueAt, hi]
  simp [rowValue, lastSolution, h, row_eq_ok.mpr hr, bind, Except.bind]

theorem rowSumAt_of_some (h : m.solution = some x) (hr : m.rows[i]? = some row) :
    m.rowSumAt i = do
      let terms ← (row.coefs.filter m.counts).mapM fun e => x.value e.1
      return Scalar.sum terms := by
  have hi : m.rowId i = .ok i := rowId_eq_ok.mpr ⟨rfl, (List.getElem?_eq_some_iff.mp hr).1⟩
  rw [rowSumAt, hi]
  simp [rowSum, lastSolution, h, row_eq_ok.mpr hr, bind, Except.bind]

end Model

namespace Session

open Model

variable {solver : Solver K} {s : Session K}

/-- The last solve that was answered was optimal. -/
def Solved (s : Session K) : Prop :=
  (s.recent.filterMap Exchange.status?).getLast? = some .optimal

/-- What reading the values of some columns may come to. -/
inductive Reading (s : Session K) (columns : List Nat) : Except (Fault K) K → Prop where
  | number {x : K} : s.Solved → (∀ j ∈ columns, j ∉ lateColumns s.recent) →
      Reading s columns (.ok x)
  | unsolved : ¬ s.Solved → Reading s columns (.error (.noSolution s.model.name))
  | late {j n : Nat} : s.Solved → j ∈ columns → j ∈ lateColumns s.recent →
      Reading s columns (.error (.outOfRange j n))

theorem lagging_put (hsolver : ∀ sys, (solver sys).IsAnswer)
    (hlength : ∀ s x a, solver s = .optimal x a → x.length = s.bounds.length)
    (h : Lagging s.recent s.model) (c : Command K) :
    Lagging (s.put solver c).recent (s.put solver c).model := by
  unfold put
  split
  · next r m hm =>
    by_cases hc : c = .clear
    · subst hc
      cases change_of_run hm with
      | clear =>
        intro x hx
        cases hx
      | read hreads => cases hreads
    rw [recent_record, isClear_of_ne hc]
    -- a solve is taken apart here, as a `Change` does not say how many values it found
    by_cases hs : c = .solve
    · subst hs
      replace hm : Returns (run solver .solve) s.model r m := hm
      simp only [run, returns_bind, returns_pure] at hm
      obtain ⟨st, _, hm, rfl, rfl⟩ := hm
      exact Lagging.solve hlength hm
    · exact h.change hc hs (change_of_run hm)
  · next e m hm =>
    obtain rfl := atomic_run hsolver c hm
    rw [recent_record, isClear_error]
    have hsilent := silent_of_error c e
    exact h.silent hsilent.status hsilent.column rfl rfl

theorem lagging_hold (hsolver : ∀ sys, (solver sys).IsAnswer)
    (hlength : ∀ s x a, solver s = .optimal x a → x.length = s.bounds.length) (name : String)
    (commands : List (Command K)) :
    Lagging (hold solver name commands).recent (hold solver name commands).model := by
  induction commands using List.reverseRecOn with
  | nil =>
    intro x hx
    cases hx
  | append_singleton commands c ih =>
    rw [hold_concat]
    exact lagging_put hsolver hlength ih c

theorem value_eq {x : Solution K} (h : Lagging s.recent s.model) (hx : s.model.solution = some x)
    {j : Nat} (hj : j < s.model.columns.length) :
    (∃ v, x.value j = (.ok v : Except (Fault K) K)) ∧ j ∉ lateColumns s.recent ∨
      x.value j = (.error (.outOfRange j x.values.length) : Except (Fault K) K) ∧
        j ∈ lateColumns s.recent := by
  rw [h.mem_late hx hj, not_le]
  rcases lt_or_ge j x.values.length with hlt | hle
  · exact .inl ⟨⟨x.values[j], by simp [Solution.value, hlt]⟩, hlt⟩
  · exact .inr ⟨by simp [Solution.value, hle], hle⟩

theorem reading_sum {x : Solution K} (h : Lagging s.recent s.model)
    (hx : s.model.solution = some x) (hsolved : s.Solved) {entries : List (Nat × K)}
    (hentries : ∀ e ∈ entries, e.1 < s.model.columns.length) (scale : Nat × K → K → K)
    {term : Nat × K → Except (Fault K) K} (hterm : ∀ e, term e = scale e <$> x.value e.1) :
    Reading s (entries.map Prod.fst) (do return Scalar.sum (← entries.mapM term)) := by
  rcases mapM_ok_or term entries with hall | ⟨e, he, fault, hfault, hpass⟩
  · obtain ⟨terms, hterms⟩ := exists_mapM _ _ hall
    rw [hterms]
    refine .number hsolved fun j hj => ?_
    obtain ⟨e, he, rfl⟩ := List.mem_map.mp hj
    obtain ⟨v, hv⟩ := hall e he
    rcases value_eq h hx (hentries e he) with ⟨-, hin⟩ | ⟨hout, -⟩
    · exact hin
    · rw [hterm, hout] at hv
      cases hv
  · rw [hpass]
    rcases value_eq h hx (hentries e he) with ⟨⟨v, hv⟩, -⟩ | ⟨hout, hlate⟩
    · rw [hterm, hv] at hfault
      cases hfault
    · rw [hterm, hout] at hfault
      obtain rfl := Except.error.inj hfault
      exact .late hsolved (List.mem_map_of_mem he) hlate

/-- Without a late column the reading is a number. -/
theorem Reading.exists_number {columns : List Nat} {act : Except (Fault K) K}
    (h : Reading s columns act) (hsolved : s.Solved)
    (hin : ∀ j ∈ columns, j ∉ lateColumns s.recent) : ∃ x, act = .ok x := by
  cases h with
  | number _ _ => exact ⟨_, rfl⟩
  | unsolved hs => exact absurd hsolved hs
  | late _ hj hlate => exact absurd hlate (hin _ hj)

end Session

open Model Session in
/-- In any session a column or a row that was handed out can be read if the last solve was optimal
and none of the columns in question came after it. The reading fails for want of a solution if there
was no such solve, and out of range if such a column did come. -/
theorem Session.reading_of_hold {solver : Solver K} (hsolver : ∀ sys, (solver sys).IsAnswer)
    (hlength : ∀ sys x a, solver sys = .optimal x a → x.length = sys.bounds.length) (name : String)
    (commands : List (Command K)) :
    let s := hold solver name commands
    (∀ j ∈ s.recent.filterMap Exchange.column?, Reading s [j] (s.model.columnValue j)) ∧
    ∀ i ∈ s.recent.filterMap Exchange.row?, ∃ r, s.model.rows[i]? = some r ∧
      Reading s (r.coefs.map Prod.fst) (s.model.rowValueAt i) ∧
      Reading s ((r.coefs.filter s.model.counts).map Prod.fst) (s.model.rowSumAt i) := by
  intro s
  have htold : Told s.recent s.model := told_hold hsolver name commands
  have hlag : Lagging s.recent s.model := lagging_hold hsolver hlength name commands
  rw [htold.columns, htold.rows]
  refine ⟨fun j hj => ?_, fun i hi => ?_⟩
  · have hj := List.mem_range.mp hj
    cases hx : s.model.solution with
    | none =>
      rw [columnValue_of_none hx hj]
      exact .unsolved fun hs => by simpa [hx] using htold.solved.mpr hs
    | some x =>
      have hs : s.Solved := htold.solved.mp (by simp [hx])
      rw [columnValue_of_some hx hj]
      rcases value_eq hlag hx hj with ⟨⟨v, hv⟩, hin⟩ | ⟨hout, hlate⟩
      · rw [hv]
        exact .number hs (by simpa using hin)
      · rw [hout]
        exact .late hs List.mem_cons_self hlate
  · have hi := List.mem_range.mp hi
    have hr := List.getElem?_eq_getElem hi
    have hcoefs := htold.coefs _ (List.getElem_mem hi)
    refine ⟨_, hr, ?_⟩
    cases hx : s.model.solution with
    | none =>
      have hs : ¬ s.Solved := fun hs => by simpa [hx] using htold.solved.mpr hs
      rw [rowValueAt_of_none hx, rowSumAt_of_none hx]
      exact ⟨.unsolved hs, .unsolved hs⟩
    | some x =>
      have hs : s.Solved := htold.solved.mp (by simp [hx])
      rw [rowValueAt_of_some hx hr, rowSumAt_of_some hx hr]
      have hkept : ∀ e ∈ s.model.rows[i].coefs.filter s.model.counts, e.1 < s.model.columns.length :=
        fun e he => hcoefs e (List.mem_filter.mp he).1
      exact ⟨reading_sum hlag hx hs hcoefs (fun e v => e.2 * v) fun _ => rfl,
        reading_sum hlag hx hs hkept (fun _ v => v) fun e => (id_map (x.value e.1)).symm⟩

def Session.overtaking : List (Command ℚ) :=
  [.addColumn 1 .double 0 (some 1), .addRow .lower 1 0, .addCoef 0 0 1, .load, .solve,
    .addColumn 1 .double 0 (some 1), .addCoef 0 1 1]

theorem Session.overtaking_read :
    ∃ x, (hold (Solver.trying [[1]]) "m" overtaking).model.columnValue 0 = .ok x := by
  have hread := (reading_of_hold (Solver.trying_isAnswer [[(1 : ℚ)]])
    (fun sys x a h => (Solver.trying_sound _ sys x a h).length) "m" overtaking).1 0
    (by decide +kernel)
  have hsolved : (hold (Solver.trying [[1]]) "m" overtaking).Solved := by
    unfold Solved
    decide +kernel
  exact hread.exists_number hsolved (by decide +kernel)

def Session.isOutOfRange (j : Int) : Except (Fault ℚ) ℚ → Bool
  | .error (.outOfRange i _) => i = j
  | _ => false

theorem Session.exists_outOfRange {j : Int} {act : Except (Fault ℚ) ℚ}
    (h : isOutOfRange j act = true) : ∃ n, act = .error (.outOfRange j n) := by
  unfold isOutOfRange at h
  split at h
  · next i n =>
    obtain rfl := of_decide_eq_true h
    exact ⟨n, rfl⟩
  · cases h

/-- The column that came after the solve cannot be read, nor can the row. -/
theorem Session.overtaking_unread : let s := hold (Solver.trying [[1]]) "m" overtaking
    (∃ n, s.model.columnValue 1 = .error (.outOfRange 1 n)) ∧
      (∃ n, s.model.rowValueAt 0 = .error (.outOfRange 1 n)) ∧
      ∃ n, s.model.rowSumAt 0 = .error (.outOfRange 1 n) :=
  ⟨exists_outOfRange (by decide +kernel), exists_outOfRange (by decide +kernel),
    exists_outOfRange (by decide +kernel)⟩

end LPRounding
