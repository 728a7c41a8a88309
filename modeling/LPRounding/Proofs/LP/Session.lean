import Mathlib.Data.List.DropRight
import LPRounding.Proofs.LP.Trying
import LPRounding.Proofs.Fails
import LPRounding.LP.Script

/-!
Sessions: any commands, put to a new model one after the other. A model is what the commands since
the last clear have made of it, and can be read off their replies; a command that fails has changed
nothing.
-/

namespace LPRounding

set_option linter.unusedSectionVars false

variable {K : Type}

/-- The system was read, and the solver came to an end with it. -/
def Verdict.IsAnswer : Verdict K → Prop
  | .optimal .. | .infeasible | .unbounded => True
  | .refused _ | .undecided => False

def Command.reads : Command K → Bool
  | .isFixed _ | .isRelaxed _ | .active | .counts | .columnValue _ | .values | .rowValue _
  | .rowDegree _ | .rowSum _ | .coefs _ | .objective | .dump => true
  | _ => false

/-- A command and what it came to. -/
structure Exchange (K : Type) where
  command : Command K
  answer : Except (Fault K) (Reply K)

namespace Exchange

def isClear (e : Exchange K) : Bool :=
  match e.command, e.answer with
  | .clear, .ok _ => true
  | _, _ => false

def column? (e : Exchange K) : Option Nat :=
  match e.command, e.answer with
  | .addColumn .., .ok (.id n) => some n
  | _, _ => none

def row? (e : Exchange K) : Option Nat :=
  match e.command, e.answer with
  | .addRow .., .ok (.id n) => some n
  | _, _ => none

/-- What a solve that came to an end answered. -/
def status? (e : Exchange K) : Option Status :=
  match e.command, e.answer with
  | .solve, .ok (.status st) => some st
  | _, _ => none

end Exchange

structure Session (K : Type) where
  exchanges : List (Exchange K) := []
  model : Model K := {}

namespace Session

/-- What was said after the last clear. -/
def recent (s : Session K) : List (Exchange K) := s.exchanges.rtakeWhile fun e => !e.isClear

variable [Scalar K]

/-- Puts a command to the model. What a command that fails has changed would stay. -/
def put (solver : Solver K) (s : Session K) (c : Command K) : Session K :=
  match Model.run solver c s.model with
  | .ok r m => { exchanges := s.exchanges ++ [⟨c, .ok r⟩], model := m }
  | .error e m => { exchanges := s.exchanges ++ [⟨c, .error e⟩], model := m }

def hold (solver : Solver K) (name : String) (commands : List (Command K)) : Session K :=
  commands.foldl (put solver) { model := { name } }

end Session

section Steady

variable {ε σ α β : Type}

structure Steady (act : EStateM ε σ α) : Prop where
  returns : ∀ {s a t}, Returns act s a t → t = s
  fails : ∀ {s e t}, Fails act s e t → t = s

/-- The action leaves the state as it was if it fails. -/
def Atomic (act : EStateM ε σ α) : Prop := ∀ ⦃s e t⦄, Fails act s e t → t = s

theorem Steady.atomic {act : EStateM ε σ α} (h : Steady act) : Atomic act := fun _ _ _ => h.fails

theorem steady_pure (a : α) : Steady (pure a : EStateM ε σ α) :=
  ⟨fun h => (returns_pure.mp h).2.symm, fun h => (fails_pure.mp h).elim⟩

theorem steady_throw (e : ε) : Steady (throw e : EStateM ε σ α) :=
  ⟨fun h => (returns_throw.mp h).elim, fun h => (fails_throw.mp h).2.symm⟩

theorem steady_get : Steady (get : EStateM ε σ σ) :=
  ⟨fun h => (returns_get.mp h).2.symm, fun h => (fails_get.mp h).elim⟩

theorem steady_lift (x : Except ε α) : Steady (liftM x : EStateM ε σ α) :=
  ⟨fun h => (returns_lift.mp h).2.symm, fun h => (fails_lift.mp h).2.symm⟩

theorem Steady.bind {act : EStateM ε σ α} {next : α → EStateM ε σ β} (h : Steady act)
    (hn : ∀ a, Steady (next a)) : Steady (act >>= next) := by
  constructor
  · intro s b t ht
    obtain ⟨a, u, hu, ht⟩ := returns_bind.mp ht
    exact ((hn a).returns ht).trans (h.returns hu)
  · intro s e t ht
    rcases fails_bind.mp ht with ht | ⟨a, u, hu, ht⟩
    · exact h.fails ht
    · exact ((hn a).fails ht).trans (h.returns hu)

theorem Steady.bind_atomic {act : EStateM ε σ α} {next : α → EStateM ε σ β} (h : Steady act)
    (hn : ∀ a, Atomic (next a)) : Atomic (act >>= next) := by
  intro s e t ht
  rcases fails_bind.mp ht with ht | ⟨a, u, hu, ht⟩
  · exact h.fails ht
  · exact (hn a ht).trans (h.returns hu)

theorem Atomic.reply {act : EStateM ε σ α} (h : Atomic act) (f : α → β) :
    Atomic (act >>= fun a => pure (f a)) := by
  intro s e t ht
  rcases fails_bind.mp ht with ht | ⟨a, u, -, ht⟩
  · exact h ht
  · exact (fails_pure.mp ht).elim

@[simp] theorem fails_set {s t u : σ} {e : ε} :
    Fails (set u : EStateM ε σ PUnit) s e t ↔ False := by
  simp [Fails, set, MonadStateOf.set, EStateM.set]

theorem atomic_set (u : σ) : Atomic (set u : EStateM ε σ PUnit) :=
  fun _ _ _ h => (fails_set.mp h).elim

theorem atomic_modify (f : σ → σ) : Atomic (modify f : EStateM ε σ PUnit) :=
  fun _ _ _ h => (fails_modify.mp h).elim

end Steady

namespace Model

variable [Scalar K] {solver : Solver K} {m m' : Model K}

/-- What a command that succeeds makes of a model, and what it replies. -/
inductive Change : Command K → Reply K → Model K → Model K → Prop where
  | column {m : Model K} {cost lo : K} {kind : BoundKind} {hi : Option K} {c : Column K} :
      c.fixed = none →
      Change (.addColumn cost kind lo hi) (.id m.columns.length) m
        { m with columns := m.columns ++ [c] }
  | row {m : Model K} {lo hi : K} {kind : BoundKind} {r : Row K} :
      r.coefs = [] → r.relaxed = false →
      Change (.addRow kind lo hi) (.id m.rows.length) m { m with rows := m.rows ++ [r] }
  | coef {m : Model K} {i j : Nat} {c : K} {r : Row K} :
      m.rows[i]? = some r → j < m.columns.length →
      Change (.addCoef i j c) .done m { m with rows := m.rows.set i (r.addCoef j c) }
  | rename {m : Model K} (name : String) : Change (.rename name) .done m { m with name }
  | direct {m : Model K} (direction : Direction) :
      Change (.direct direction) .done m { m with direction }
  | load {m : Model K} : Change .load .done m { m with loaded := true }
  | clear {m : Model K} :
      Change .clear .done m { name := m.name, direction := m.direction }
  | fix {m : Model K} {j : Nat} {v : K} {c : Column K} :
      m.columns[j]? = some c → c.fixed = none →
      Change (.fix j v) .done m
        { m with columns := m.columns.set j { c with fixed := some v } }
  | relax {m : Model K} {i : Nat} {r : Row K} :
      m.rows[i]? = some r → r.relaxed = false →
      Change (.relax i) .done m { m with rows := m.rows.set i { r with relaxed := true } }
  | solve {m : Model K} {st : Status} {solution : Option (Solution K)} :
      (solution.isSome ↔ st = .optimal) →
      Change .solve (.status st) m { m with solution }
  | read {m : Model K} {c : Command K} {r : Reply K} : c.reads = true → Change c r m m

theorem steady_of_reads {c : Command K} (h : c.reads = true) : Steady (run solver c) := by
  cases c with
  | active | counts | dump => exact steady_get.bind fun m => steady_pure _
  | objective | values | rowValue | rowSum =>
    exact steady_get.bind fun m => (steady_lift _).bind fun _ => steady_pure _
  | isFixed | isRelaxed | columnValue | rowDegree | coefs =>
    exact steady_get.bind fun m => (steady_lift _).bind fun _ => (steady_lift _).bind fun _ =>
      steady_pure _
  | _ => cases h

theorem columnId_eq_ok {id : Int} {j : Nat} :
    m.columnId id = .ok j ↔ id = j ∧ j < m.columns.length := by
  unfold columnId
  split
  · rw [Except.ok.injEq]
    omega
  · simp only [reduceCtorEq, false_iff]
    omega

theorem rowId_eq_ok {id : Int} {i : Nat} :
    m.rowId id = .ok i ↔ id = i ∧ i < m.rows.length := by
  unfold rowId
  split
  · rw [Except.ok.injEq]
    omega
  · simp only [reduceCtorEq, false_iff]
    omega

theorem column_eq_ok {j : Nat} {c : Column K} : m.column j = .ok c ↔ m.columns[j]? = some c := by
  unfold column
  split <;> simp_all

theorem row_eq_ok {i : Nat} {r : Row K} : m.row i = .ok r ↔ m.rows[i]? = some r := by
  unfold row
  split <;> simp_all

theorem returns_addColumn {cost lo : K} {kind : BoundKind} {hi : Option K} {id : Nat}
    (h : Returns (addColumn cost kind lo hi) m id m') :
    id = m.columns.length ∧ ∃ c, c.fixed = none ∧ m' = { m with columns := m.columns ++ [c] } := by
  unfold addColumn at h
  split at h
  · simp at h
  dsimp only at h
  split at h
  · simp at h
  simp only [returns_bind, returns_get, returns_set, returns_pure] at h
  obtain ⟨_, _, ⟨rfl, rfl⟩, _, _, rfl, rfl, rfl⟩ := h
  exact ⟨rfl, _, rfl, rfl⟩

theorem returns_addRow {kind : BoundKind} {lo hi : K} {id : Nat}
    (h : Returns (addRow kind lo hi) m id m') : id = m.rows.length ∧
      ∃ r, r.coefs = [] ∧ r.relaxed = false ∧ m' = { m with rows := m.rows ++ [r] } := by
  unfold addRow at h
  split at h
  · simp at h
  obtain ⟨rfl, rfl⟩ := returns_appendRow.mp h
  exact ⟨rfl, _, rfl, rfl, rfl⟩

theorem returns_addCoef {i j : Nat} {c : K} (h : Returns (addCoef i j c) m () m') :
    j < m.columns.length ∧ ∃ r, m.rows[i]? = some r ∧
      m' = { m with rows := m.rows.set i (r.addCoef j c) } := by
  simp only [addCoef, returns_bind, returns_get, returns_lift, returns_set] at h
  obtain ⟨_, _, ⟨rfl, rfl⟩, _, _, ⟨hc, rfl⟩, r, _, ⟨hr, rfl⟩, rfl⟩ := h
  exact ⟨(List.getElem?_eq_some_iff.mp (column_eq_ok.mp hc)).1, r, row_eq_ok.mp hr, rfl⟩

/-- Everything that a command can do. -/
theorem change_of_run {c : Command K} {r : Reply K} (h : Returns (run solver c) m r m') :
    Change c r m m' := by
  by_cases hreads : c.reads = true
  · obtain rfl := (steady_of_reads hreads).returns h
    exact .read hreads
  cases c with
  | addColumn cost kind lo hi =>
    simp only [run, returns_bind, returns_pure] at h
    obtain ⟨_, _, h, rfl, rfl⟩ := h
    obtain ⟨rfl, c, hc, rfl⟩ := returns_addColumn h
    exact .column hc
  | addRow kind lo hi =>
    simp only [run, returns_bind, returns_pure] at h
    obtain ⟨_, _, h, rfl, rfl⟩ := h
    obtain ⟨rfl, r, hcoefs, hrelaxed, rfl⟩ := returns_addRow h
    exact .row hcoefs hrelaxed
  | addCoef row column coef =>
    simp only [run, returns_bind, returns_get, returns_lift, returns_pure] at h
    obtain ⟨_, _, ⟨rfl, rfl⟩, j, _, ⟨hj, rfl⟩, i, _, ⟨hi, rfl⟩, _, _, h, rfl, rfl⟩ := h
    obtain ⟨rfl, -⟩ := columnId_eq_ok.mp hj
    obtain ⟨rfl, -⟩ := rowId_eq_ok.mp hi
    obtain ⟨hlt, r, hr, rfl⟩ := returns_addCoef h
    exact .coef hr hlt
  | rename name =>
    simp only [run, rename, returns_bind, returns_modify, returns_pure] at h
    obtain ⟨_, _, rfl, rfl, rfl⟩ := h
    exact .rename name
  | direct direction =>
    simp only [run, direct, returns_bind, returns_modify, returns_pure] at h
    obtain ⟨_, _, rfl, rfl, rfl⟩ := h
    exact .direct direction
  | load =>
    simp only [run, load, returns_bind, returns_modify, returns_pure] at h
    obtain ⟨_, _, rfl, rfl, rfl⟩ := h
    exact .load
  | clear =>
    simp only [run, clear, returns_bind, returns_modify, returns_pure] at h
    obtain ⟨_, _, rfl, rfl, rfl⟩ := h
    exact .clear
  | fix column value =>
    simp only [run, returns_bind, returns_get, returns_lift, returns_pure] at h
    obtain ⟨_, _, ⟨rfl, rfl⟩, j, _, ⟨hj, rfl⟩, _, _, h, rfl, rfl⟩ := h
    obtain ⟨rfl, -⟩ := columnId_eq_ok.mp hj
    obtain ⟨c, hc, hopen, rfl⟩ := returns_fixColumn.mp h
    exact .fix hc hopen
  | relax row =>
    simp only [run, returns_bind, returns_get, returns_lift, returns_pure] at h
    obtain ⟨_, _, ⟨rfl, rfl⟩, i, _, ⟨hi, rfl⟩, _, _, h, rfl, rfl⟩ := h
    obtain ⟨rfl, -⟩ := rowId_eq_ok.mp hi
    obtain ⟨r, hr, hkept, rfl⟩ := returns_relaxRow.mp h
    exact .relax hr hkept
  | solve =>
    simp only [run, returns_bind, returns_pure] at h
    obtain ⟨st, _, h, rfl, rfl⟩ := h
    obtain ⟨solution, rfl, ⟨rfl, -, -, rfl⟩ | ⟨rfl, -, x, c, -, rfl⟩ | ⟨hst, rfl⟩⟩ :=
      returns_solve h
    · exact .solve (by simp)
    · exact .solve (by simp)
    · exact .solve (by simp [hst])
  | _ => exact absurd rfl hreads

theorem atomic_addColumn (cost : K) (kind : BoundKind) (lo : K) (hi : Option K) :
    Atomic (addColumn cost kind lo hi) := by
  unfold addColumn
  split
  · exact (steady_throw _).atomic
  dsimp only
  split
  · exact (steady_throw _).atomic
  exact steady_get.bind_atomic fun m => (atomic_set _).reply _

theorem atomic_addRow (kind : BoundKind) (lo hi : K) : Atomic (addRow kind lo hi) := by
  unfold addRow
  split
  · exact (steady_throw _).atomic
  exact steady_get.bind_atomic fun m => (atomic_set _).reply _

theorem atomic_addCoef (i j : Nat) (c : K) : Atomic (addCoef i j c) :=
  steady_get.bind_atomic fun _ => (steady_lift _).bind_atomic fun _ =>
    (steady_lift _).bind_atomic fun _ => atomic_set _

theorem atomic_fixColumn (j : Nat) (v : K) : Atomic (fixColumn j v) := by
  refine steady_get.bind_atomic fun m => (steady_lift _).bind_atomic fun c => ?_
  split
  · exact (steady_throw _).atomic
  · exact atomic_set _

theorem atomic_relaxRow (i : Nat) : Atomic (relaxRow i : Edit K Unit) := by
  refine steady_get.bind_atomic fun m => (steady_lift _).bind_atomic fun r => ?_
  split
  · exact (steady_throw _).atomic
  · exact atomic_set _

theorem atomic_solve (hsolver : ∀ s, (solver s).IsAnswer) : Atomic (solve solver) := by
  refine steady_get.bind_atomic fun m => ?_
  split
  · exact (steady_throw _).atomic
  intro s e t h
  rcases fails_bind.mp h with h | ⟨_, u, -, h⟩
  · cases h
  exfalso
  dsimp only at h
  split at h
  · split at h <;> simp at h
  · have hanswer := hsolver { m with solution := none }.system
    split at h
    · simp at h
    · simp at h
    · simp at h
    · next hv =>
      rw [hv] at hanswer
      exact hanswer
    · next hv =>
      rw [hv] at hanswer
      exact hanswer

theorem atomic_run (hsolver : ∀ s, (solver s).IsAnswer) (c : Command K) : Atomic (run solver c) := by
  by_cases hreads : c.reads = true
  · exact (steady_of_reads hreads).atomic
  cases c with
  | addColumn => exact (atomic_addColumn ..).reply _
  | addRow => exact (atomic_addRow ..).reply _
  | addCoef =>
    exact steady_get.bind_atomic fun m => (steady_lift _).bind_atomic fun _ =>
      (steady_lift _).bind_atomic fun _ => (atomic_addCoef ..).reply _
  | rename | direct | load | clear => exact (atomic_modify _).reply _
  | fix =>
    exact steady_get.bind_atomic fun m => (steady_lift _).bind_atomic fun _ =>
      (atomic_fixColumn ..).reply _
  | relax =>
    exact steady_get.bind_atomic fun m => (steady_lift _).bind_atomic fun _ =>
      (atomic_relaxRow _).reply _
  | solve => exact (atomic_solve hsolver).reply _
  | _ => exact absurd rfl hreads

theorem mem_addTo {j : Nat} {a : K} {cs : List (Nat × K)} {e : Nat × K} (h : e ∈ addTo j a cs) :
    e.1 = j ∨ ∃ e' ∈ cs, e'.1 = e.1 := by
  induction cs with
  | nil => exact .inl (by rw [List.mem_singleton.mp h])
  | cons d cs ih =>
    rw [addTo] at h
    split at h
    · next hd =>
      rcases List.mem_cons.mp h with rfl | h
      · exact .inl hd
      · exact .inr ⟨e, List.mem_cons_of_mem _ h, rfl⟩
    · rcases List.mem_cons.mp h with rfl | h
      · exact .inr ⟨_, List.mem_cons_self, rfl⟩
      · obtain hj | ⟨e', he', heq⟩ := ih h
        · exact .inl hj
        · exact .inr ⟨e', List.mem_cons_of_mem _ he', heq⟩

def relaxedAt (m : Model K) (i : Nat) : Prop := ∃ r, m.rows[i]? = some r ∧ r.relaxed = true

theorem fixedAt_append {d : Column K} (hd : d.fixed = none) (j : Nat) :
    ({ m with columns := m.columns ++ [d] } : Model K).fixedAt j = m.fixedAt j := by
  unfold fixedAt
  rcases Nat.lt_trichotomy j m.columns.length with hj | rfl | hj
  · simp [List.getElem?_append_left hj]
  · simp [hd]
  · simp [List.getElem?_eq_none, hj.le, Nat.succ_le_of_lt hj]

theorem relaxedAt_append {r : Row K} (hr : r.relaxed = false) (i : Nat) :
    ({ m with rows := m.rows ++ [r] } : Model K).relaxedAt i ↔ m.relaxedAt i := by
  unfold relaxedAt
  rcases Nat.lt_trichotomy i m.rows.length with hi | rfl | hi
  · simp [List.getElem?_append_left hi]
  · simp [hr]
  · simp [List.getElem?_eq_none, hi.le, Nat.succ_le_of_lt hi]

theorem relaxedAt_set {r r' : Row K} {i : Nat} (hr : m.rows[i]? = some r) (k : Nat) :
    ({ m with rows := m.rows.set i r' } : Model K).relaxedAt k ↔
      if k = i then r'.relaxed = true else m.relaxedAt k := by
  have hi := (List.getElem?_eq_some_iff.mp hr).1
  unfold relaxedAt
  by_cases hk : k = i
  · subst hk
    simp [hi]
  · simp [List.getElem?_set_ne (Ne.symm hk), hk]

theorem relaxedAt_addCoef {r : Row K} {i j : Nat} {a : K} (hr : m.rows[i]? = some r) (k : Nat) :
    ({ m with rows := m.rows.set i (r.addCoef j a) } : Model K).relaxedAt k ↔ m.relaxedAt k := by
  rw [relaxedAt_set hr]
  by_cases hk : k = i
  · subst hk
    simp [relaxedAt, hr, Row.addCoef]
  · simp [hk]

/-- What the commands since the last clear say of the model. -/
structure Told (log : List (Exchange K)) (m : Model K) : Prop where
  columns : log.filterMap Exchange.column? = List.range m.columns.length
  rows : log.filterMap Exchange.row? = List.range m.rows.length
  coefs : ∀ r ∈ m.rows, ∀ e ∈ r.coefs, e.1 < m.columns.length
  fixed : ∀ (j : Nat) v, m.fixedAt j = some v ↔ ⟨.fix j v, .ok .done⟩ ∈ log
  relaxed : ∀ i : Nat, m.relaxedAt i ↔ ⟨.relax i, .ok .done⟩ ∈ log
  solved : m.solution.isSome ↔ (log.filterMap Exchange.status?).getLast? = some .optimal

variable {log : List (Exchange K)} {c : Command K} {r : Reply K}

/-- Nothing was said that a model shows. -/
structure Silent (x : Exchange K) : Prop where
  column : x.column? = none
  row : x.row? = none
  status : x.status? = none
  fix : ∀ j v, x ≠ ⟨.fix j v, .ok .done⟩
  relax : ∀ i, x ≠ ⟨.relax i, .ok .done⟩

theorem silent_of_reads (hc : c.reads = true) : Silent ⟨c, .ok r⟩ := by
  constructor
  · cases c <;> first | rfl | cases hc
  · cases c <;> first | rfl | cases hc
  · cases c <;> first | rfl | cases hc
  · rintro j v ⟨⟩
    cases hc
  · rintro i ⟨⟩
    cases hc

theorem silent_of_error (c : Command K) (e : Fault K) : Silent ⟨c, .error e⟩ := by
  refine ⟨?_, ?_, ?_, by simp, by simp⟩ <;> cases c <;> rfl

namespace Told

variable {x : Exchange K}

theorem columns_concat (h : Told log m) (hx : x.column? = none) :
    (log ++ [x]).filterMap Exchange.column? = List.range m.columns.length := by
  simpa [hx] using h.columns

theorem rows_concat (h : Told log m) (hx : x.row? = none) :
    (log ++ [x]).filterMap Exchange.row? = List.range m.rows.length := by
  simpa [hx] using h.rows

theorem solved_concat (h : Told log m) (hx : x.status? = none) : m.solution.isSome ↔
    ((log ++ [x]).filterMap Exchange.status?).getLast? = some .optimal := by
  simpa [hx] using h.solved

theorem silent (h : Told log m) (hx : Silent x) (hcolumns : m'.columns = m.columns)
    (hrows : m'.rows = m.rows) (hsolution : m'.solution = m.solution) : Told (log ++ [x]) m' := by
  constructor
  · rw [hcolumns]
    exact h.columns_concat hx.column
  · rw [hrows]
    exact h.rows_concat hx.row
  · rw [hrows, hcolumns]
    exact h.coefs
  · intro j v
    simpa [fixedAt, hcolumns, (hx.fix j v).symm] using h.fixed j v
  · intro i
    simpa [relaxedAt, hrows, (hx.relax i).symm] using h.relaxed i
  · rw [hsolution]
    exact h.solved_concat hx.status

theorem coefs_set (h : Told log m) {i : Nat} {r' : Row K}
    (hr' : ∀ e ∈ r'.coefs, e.1 < m.columns.length) :
    ∀ r ∈ m.rows.set i r', ∀ e ∈ r.coefs, e.1 < m.columns.length := by
  intro r hr
  rcases List.mem_or_eq_of_mem_set hr with hr | rfl
  · exact h.coefs r hr
  · exact hr'

theorem clear (name : String) (direction : Direction) :
    Told [] ({ name, direction } : Model K) := by
  constructor <;> simp [fixedAt, relaxedAt]

theorem change (h : Told log m) (hc : c ≠ .clear) (hm : Change c r m m') :
    Told (log ++ [⟨c, .ok r⟩]) m' := by
  cases hm with
  | clear => exact absurd rfl hc
  | rename | direct | load => exact h.silent ⟨rfl, rfl, rfl, nofun, nofun⟩ rfl rfl rfl
  | read hreads => exact h.silent (silent_of_reads hreads) rfl rfl rfl
  | @column _ _ _ _ _ c hopen =>
    constructor
    · simp [Exchange.column?, h.columns, List.range_succ]
    · exact h.rows_concat rfl
    · intro r hr e he
      have := h.coefs r hr e he
      simp only [List.length_append]
      omega
    · intro j v
      rw [fixedAt_append hopen]
      simpa using h.fixed j v
    · simpa [relaxedAt] using h.relaxed
    · exact h.solved_concat rfl
  | @row _ _ _ _ r hcoefs hkept =>
    constructor
    · exact h.columns_concat rfl
    · simp [Exchange.row?, h.rows, List.range_succ]
    · intro r' hr' e he
      rcases List.mem_append.mp hr' with hr' | hr'
      · exact h.coefs r' hr' e he
      · obtain rfl := List.mem_singleton.mp hr'
        simp [hcoefs] at he
    · simpa [fixedAt] using h.fixed
    · intro i
      rw [relaxedAt_append hkept]
      simpa using h.relaxed i
    · exact h.solved_concat rfl
  | coef hr hlt =>
    constructor
    · exact h.columns_concat rfl
    · simpa using h.rows_concat rfl
    · refine h.coefs_set fun e he => ?_
      rcases mem_addTo he with hj | ⟨e', he', heq⟩
      · exact hj ▸ hlt
      · exact heq ▸ h.coefs _ (List.mem_of_getElem? hr) e' he'
    · simpa [fixedAt] using h.fixed
    · intro k
      rw [relaxedAt_addCoef hr]
      simpa using h.relaxed k
    · exact h.solved_concat rfl
  | @fix _ j v _ hcol hopen =>
    constructor
    · simpa using h.columns_concat rfl
    · exact h.rows_concat rfl
    · simpa using h.coefs
    · intro i w
      rw [fixedAt_set hcol, List.mem_append, ← h.fixed, List.mem_singleton]
      by_cases hij : i = j
      · subst hij
        simp [fixedAt, hcol, hopen, eq_comm]
      · simp [hij]
    · simpa [relaxedAt] using h.relaxed
    · exact h.solved_concat rfl
  | @relax _ i _ hr hkept =>
    constructor
    · exact h.columns_concat rfl
    · simpa using h.rows_concat rfl
    · exact h.coefs_set fun e he => h.coefs _ (List.mem_of_getElem? hr) e he
    · simpa [fixedAt] using h.fixed
    · intro k
      rw [relaxedAt_set hr, List.mem_append, ← h.relaxed, List.mem_singleton]
      by_cases hk : k = i
      · simp [hk]
      · simp [hk]
    · exact h.solved_concat rfl
  | solve hst =>
    constructor
    · exact h.columns_concat rfl
    · exact h.rows_concat rfl
    · exact h.coefs
    · simpa [fixedAt] using h.fixed
    · simpa [relaxedAt] using h.relaxed
    · simpa [List.filterMap_cons, Exchange.status?] using hst

end Told

end Model

namespace Session

open Model

variable [Scalar K] {solver : Solver K} {s : Session K} {name : String} {c : Command K}

theorem hold_concat (commands : List (Command K)) :
    hold solver name (commands ++ [c]) = (hold solver name commands).put solver c := by
  simp [hold]

theorem isClear_of_ne (hc : c ≠ .clear) (answer : Except (Fault K) (Reply K)) :
    (Exchange.mk c answer).isClear = false := by
  cases c <;> first | rfl | exact absurd rfl hc

theorem isClear_error (c : Command K) (e : Fault K) :
    (Exchange.mk c (.error e)).isClear = false := by
  cases c <;> rfl

theorem recent_record (s : Session K) (x : Exchange K) (m : Model K) :
    ({ exchanges := s.exchanges ++ [x], model := m } : Session K).recent =
      if x.isClear then [] else s.recent ++ [x] := by
  simp only [recent, List.rtakeWhile_concat]
  cases x.isClear <;> simp

theorem recent_put (solver : Solver K) (s : Session K) (hc : c ≠ .clear) :
    ∃ answer, (s.put solver c).recent = s.recent ++ [⟨c, answer⟩] := by
  unfold put
  split
  · exact ⟨_, by rw [recent_record, isClear_of_ne hc]; rfl⟩
  · exact ⟨_, by rw [recent_record, isClear_of_ne hc]; rfl⟩

theorem told_put (hsolver : ∀ sys, (solver sys).IsAnswer) (h : Told s.recent s.model)
    (c : Command K) : Told (s.put solver c).recent (s.put solver c).model := by
  unfold put
  split
  · next r m hm =>
    by_cases hc : c = .clear
    · subst hc
      cases change_of_run hm with
      | clear =>
        rw [recent_record]
        exact .clear ..
      | read hreads => cases hreads
    · rw [recent_record, isClear_of_ne hc]
      exact h.change hc (change_of_run hm)
  · next e m hm =>
    obtain rfl := atomic_run hsolver c hm
    rw [recent_record, isClear_error]
    exact h.silent (silent_of_error c e) rfl rfl rfl

/-- At any time of a session the model is what the commands since the last clear say. -/
theorem told_hold (hsolver : ∀ sys, (solver sys).IsAnswer) (name : String)
    (commands : List (Command K)) :
    Told (hold solver name commands).recent (hold solver name commands).model := by
  induction commands using List.reverseRecOn with
  | nil => exact .clear name .minimize
  | append_singleton commands c ih =>
    rw [hold_concat]
    exact told_put hsolver ih c

theorem mem_recent_append {x : Exchange K} {commands more : List (Command K)}
    (hmore : .clear ∉ more) (hx : x ∈ (hold solver name commands).recent) :
    x ∈ (hold solver name (commands ++ more)).recent := by
  induction more using List.reverseRecOn with
  | nil => simpa using hx
  | append_singleton more c ih =>
    simp only [List.mem_append, List.mem_singleton, not_or] at hmore
    obtain ⟨answer, hrecent⟩ :=
      recent_put solver (hold solver name (commands ++ more)) (Ne.symm hmore.2)
    rw [← List.append_assoc, hold_concat, hrecent]
    exact List.mem_append_left _ (ih hmore.1)

end Session

namespace Model

variable [Scalar K] {m : Model K}

theorem objective_readable : (∃ x, m.objective = .ok x) ↔ m.solution.isSome := by
  cases h : m.solution <;> simp [objective, lastSolution, h, bind, Except.bind, pure, Except.pure]

theorem mem_activeRows_iff {i : Nat} :
    i ∈ m.activeRows ↔ i < m.rows.length ∧ ¬ m.relaxedAt i := by
  rw [mem_activeRows]
  constructor
  · rintro ⟨r, hr, hkept⟩
    exact ⟨(List.getElem?_eq_some_iff.mp hr).1, by simp [relaxedAt, hr, hkept]⟩
  · rintro ⟨hi, hkept⟩
    have hr := List.getElem?_eq_getElem hi
    exact ⟨_, hr, by simpa [relaxedAt, hr] using hkept⟩

end Model

open Model Session in
/-- Ids count from zero since the last clear, what is fixed or relaxed stays so until the next one,
a solution is readable as long as the last solve that came to an end was optimal, and a command that
fails has changed nothing. -/
theorem Session.model_of_hold [Scalar K] {solver : Solver K}
    (hsolver : ∀ sys, (solver sys).IsAnswer) (name : String) (commands : List (Command K)) :
    let s := hold solver name commands
    s.recent.filterMap Exchange.column? = List.range s.model.columns.length ∧
    s.recent.filterMap Exchange.row? = List.range s.model.rows.length ∧
    (∀ r ∈ s.model.rows, ∀ e ∈ r.coefs, e.1 < s.model.columns.length) ∧
    (s.model.activeColumns.Pairwise (· < ·) ∧ ∀ j : Nat, j ∈ s.model.activeColumns ↔
      j < s.model.columns.length ∧ ∀ v, ⟨.fix j v, .ok .done⟩ ∉ s.recent) ∧
    (s.model.activeRows.Pairwise (· < ·) ∧ ∀ i : Nat, i ∈ s.model.activeRows ↔
      i < s.model.rows.length ∧ ⟨.relax i, .ok .done⟩ ∉ s.recent) ∧
    (∀ more, .clear ∉ more →
      (∀ j v, s.model.fixedAt j = some v →
        (hold solver name (commands ++ more)).model.fixedAt j = some v) ∧
      ∀ i, s.model.relaxedAt i → (hold solver name (commands ++ more)).model.relaxedAt i) ∧
    ((∃ x, s.model.objective = .ok x) ↔
      (s.recent.filterMap Exchange.status?).getLast? = some .optimal) ∧
    ∀ c e m, Fails (Model.run solver c) s.model e m → m = s.model := by
  intro s
  have h : Told s.recent s.model := told_hold hsolver name commands
  refine ⟨h.columns, h.rows, h.coefs, ⟨ascending_positions _ _, fun j => ?_⟩,
    ⟨ascending_positions _ _, fun i => ?_⟩, fun more hmore => ⟨fun j v hv => ?_, fun i hi => ?_⟩,
    objective_readable.trans h.solved, fun c e m hm => atomic_run hsolver c hm⟩
  · rw [mem_activeColumns_iff, Option.eq_none_iff_forall_ne_some]
    exact and_congr_right fun _ => forall_congr' fun v => not_congr (h.fixed j v)
  · rw [mem_activeRows_iff, h.relaxed]
  · have htold := told_hold hsolver name (commands ++ more)
    exact (htold.fixed j v).mpr (mem_recent_append hmore ((h.fixed j v).mp hv))
  · have htold := told_hold hsolver name (commands ++ more)
    exact (htold.relaxed i).mpr (mem_recent_append hmore ((h.relaxed i).mp hi))

theorem Solver.trying_isAnswer [Scalar K] [DecidableEq K] (points : List (List K)) (sys : System K) :
    (Solver.trying points sys).IsAnswer := by
  unfold Solver.trying
  split
  · trivial
  · trivial

/-- A session with four commands that fail: one coefficient goes to a column that does not exist,
one solve comes too early, a column is fixed twice and a row relaxed twice. -/
def Session.sample : List (Command ℚ) :=
  [.addColumn 1 .double 0 (some 1), .addRow .lower 1 0, .addCoef 0 1 1, .addCoef 0 0 1, .solve, .load,
    .solve, .fix 0 1, .fix 0 0, .relax 0, .relax 0]

open Session in
theorem Session.model_of_sample :
    (∀ sys, (Solver.trying [[(1 : ℚ)]] sys).IsAnswer) ∧
    let s := hold (Solver.trying [[1]]) "sample" sample
    (∃ x, s.model.objective = .ok x) ∧ s.model.activeColumns.Pairwise (· < ·) ∧
      ∀ c e m, Fails (Model.run (Solver.trying [[1]]) c) s.model e m → m = s.model := by
  have hsolver := Solver.trying_isAnswer [[(1 : ℚ)]]
  obtain ⟨-, -, -, ⟨hcolumns, -⟩, -, -, hreadable, hfails⟩ :=
    model_of_hold hsolver "sample" sample
  exact ⟨hsolver, hreadable.mpr (by decide +kernel), hcolumns, hfails⟩

end LPRounding
