import LPRounding.Proofs.Fails
import LPRounding.Proofs.Assignment.Answer
import LPRounding.Problem.BoundedTree

/-!
Passes of the engine. A pass changes the model while it goes over it, but nothing that its rule
looks at: fixing a column leaves the values of all columns, and relaxing a row leaves the degrees and
the sums of all rows. So a pass decides on every column or row as it would have at its start.
-/

namespace LPRounding

set_option linter.unusedSectionVars false

variable {P K σ β : Type} [Field K] [LinearOrder K] [IsStrictOrderedRing K] [FloorRing K]

namespace Model

def fixing (choice : Nat → Option K) (m : Model K) : Model K :=
  { m with columns := m.columns.mapIdx fun j c => { c with fixed := c.fixed.or (choice j) } }

variable {m : Model K} {i j : Nat} {f g : Nat → Option K}

theorem fixing_congr (h : ∀ j ∈ m.activeColumns, f j = g j) : m.fixing f = m.fixing g := by
  unfold fixing
  congr 1
  refine List.mapIdx_eq_mapIdx_iff.mpr fun j hj => ?_
  cases hfixed : m.columns[j].fixed with
  | none =>
    rw [h j (mem_activeColumns.mpr ⟨_, List.getElem?_eq_getElem hj, hfixed⟩)]
  | some v => rfl

theorem fixing_none (h : ∀ j ∈ m.activeColumns, f j = none) : m.fixing f = m := by
  have hsame : (m.columns.mapIdx fun _ c => ({ c with fixed := c.fixed.or none } : Column K)) =
      m.columns := by
    refine List.ext_getElem (by simp) fun j _ _ => ?_
    simp
  rw [fixing_congr h, fixing, hsame]

theorem fixing_fixing : (m.fixing f).fixing g = m.fixing fun j => (f j).or (g j) := by
  simp [fixing, Function.comp_def, Option.or_assoc]

theorem returns_fixing {v : K} (hj : j ∈ m.activeColumns) :
    Returns (fixColumn j v) m () (m.fixing fun i => if i = j then some v else none) := by
  obtain ⟨c, hc, hopen⟩ := mem_activeColumns.mp hj
  obtain ⟨hlt, rfl⟩ := List.getElem?_eq_some_iff.mp hc
  refine returns_fixColumn.mpr ⟨_, hc, hopen, ?_⟩
  unfold fixing
  congr 1
  refine List.ext_getElem (by simp) fun i hi _ => ?_
  rw [List.getElem_mapIdx, List.getElem_set]
  by_cases hij : i = j
  · subst hij
    simp [hopen]
  · simp [hij, Ne.symm hij]

theorem mem_activeColumns_fixing :
    j ∈ (m.fixing f).activeColumns ↔ j ∈ m.activeColumns ∧ f j = none := by
  simp only [mem_activeColumns, fixing, List.getElem?_mapIdx]
  cases m.columns[j]? <;> simp

theorem columnValue_fixing : (m.fixing f).columnValue j = m.columnValue j := by
  by_cases hj : j < m.columns.length
  · simp [columnValue, column, lastSolution, fixing, hj, bind, Except.bind]
  · simp [columnValue, column, fixing, hj, bind, Except.bind]

def relaxing (chosen : List Nat) (m : Model K) : Model K :=
  { m with rows := m.rows.mapIdx fun i r => { r with relaxed := r.relaxed || chosen.contains i } }

variable {xs ys : List Nat}

theorem relaxing_congr (h : ∀ i, i ∈ xs ↔ i ∈ ys) : m.relaxing xs = m.relaxing ys := by
  simp [relaxing, h]

theorem relaxing_nil : m.relaxing [] = m := by
  have hsame : (m.rows.mapIdx fun i r =>
      ({ r with relaxed := r.relaxed || ([] : List Nat).contains i } : Row K)) = m.rows := by
    refine List.ext_getElem (by simp) fun i _ _ => ?_
    simp
  rw [relaxing, hsame]

theorem relaxing_append : (m.relaxing xs).relaxing ys = m.relaxing (xs ++ ys) := by
  simp [relaxing, Function.comp_def, Bool.or_assoc]

theorem returns_relaxing (hi : i ∈ m.activeRows) :
    Returns (relaxRow i) m () (m.relaxing [i]) := by
  obtain ⟨r, hr, hkept⟩ := mem_activeRows.mp hi
  obtain ⟨hlt, rfl⟩ := List.getElem?_eq_some_iff.mp hr
  refine returns_relaxRow.mpr ⟨_, hr, hkept, ?_⟩
  unfold relaxing
  congr 1
  refine List.ext_getElem (by simp) fun k hk _ => ?_
  rw [List.getElem_mapIdx, List.getElem_set]
  by_cases hki : k = i
  · subst hki
    simp
  · simp [hki, Ne.symm hki]

theorem mem_activeRows_relaxing :
    i ∈ (m.relaxing xs).activeRows ↔ i ∈ m.activeRows ∧ i ∉ xs := by
  simp only [mem_activeRows, relaxing, List.getElem?_mapIdx]
  cases m.rows[i]? <;> simp

theorem row_relaxing : (m.relaxing xs).row i =
    (fun r => { r with relaxed := r.relaxed || xs.contains i }) <$> m.row i := by
  unfold row
  simp only [relaxing, List.getElem?_mapIdx]
  cases m.rows[i]? <;> rfl

theorem counts_relaxing : (m.relaxing xs).counts = m.counts := rfl

theorem rowDegree_relaxing : (m.relaxing xs).rowDegree i = m.rowDegree i := by
  simp only [rowDegree, row_relaxing, counts_relaxing]
  cases m.row i <;> rfl

theorem rowSum_relaxing : (m.relaxing xs).rowSum i = m.rowSum i := by
  simp only [rowSum, row_relaxing, counts_relaxing]
  cases m.row i <;> rfl

theorem rowValue_relaxing : (m.relaxing xs).rowValue i = m.rowValue i := by
  simp only [rowValue, row_relaxing]
  cases m.row i <;> rfl

end Model

structure ColumnView (K : Type) where
  tolerance : Tolerance K
  value : Except (Fault K) K

structure RowsView (P K : Type) where
  problem : P
  degree : Nat → Except (Fault K) Nat
  sum : Nat → Except (Fault K) K
  activity : Nat → Except (Fault K) K
  fixed : Nat → Option K
  value : Nat → Except (Fault K) K

namespace Run

def viewColumn [Roundable P K] (j : Nat) (s : Run P K) : ColumnView K :=
  { tolerance := Roundable.tolerance s.problem, value := s.lp.columnValue j }

def viewRows (s : Run P K) : RowsView P K :=
  { problem := s.problem, degree := s.lp.rowDegree, sum := s.lp.rowSum, activity := s.lp.rowValue
    fixed := s.lp.fixedAt, value := s.lp.columnValue }

def fixing (choice : Nat → Option K) (order : List Nat) (s : Run P K) : Run P K :=
  { s with
    lp := s.lp.fixing fun j => if j ∈ order then choice j else none
    trace := s.trace ++ order.filterMap fun j => (choice j).map (.rounded j) }

def relaxing (chosen : List Nat) (s : Run P K) : Run P K :=
  { s with lp := s.lp.relaxing chosen, trace := s.trace ++ chosen.map .relaxed }

variable {s : Run P K} {i j : Nat} {choice : Nat → Option K} {order : List Nat}

theorem viewColumn_fixing [Roundable P K] : (s.fixing choice order).viewColumn j = s.viewColumn j := by
  simp [viewColumn, fixing, Model.columnValue_fixing]

theorem viewRows_relaxing : (s.relaxing order).viewRows = s.viewRows := by
  simp only [viewRows, relaxing, RowsView.mk.injEq, true_and]
  refine ⟨?_, ?_, ?_, rfl, rfl⟩ <;> funext i
  · exact Model.rowDegree_relaxing
  · exact Model.rowSum_relaxing
  · exact Model.rowValue_relaxing

theorem fixing_nil : s.fixing choice [] = s := by
  simp [fixing, Model.fixing_none]

theorem fixing_append {more : List Nat} :
    (s.fixing choice order).fixing choice more = s.fixing choice (order ++ more) := by
  have hchoice : (fun j => (if j ∈ order then choice j else none).or
      (if j ∈ more then choice j else none)) =
      fun j => if j ∈ order ++ more then choice j else none := by
    funext j
    by_cases ho : j ∈ order <;> by_cases hm : j ∈ more <;> simp [ho, hm]
  simp only [fixing, Model.fixing_fixing, hchoice, List.filterMap_append, List.append_assoc]

theorem fixing_declined (h : choice j = none) : s.fixing choice [j] = s := by
  have hlp : s.lp.fixing (fun i => if i ∈ [j] then choice i else none) = s.lp := by
    refine Model.fixing_none fun i _ => ?_
    by_cases hij : i = j <;> simp [hij, h]
  rw [fixing, hlp]
  simp [h]

theorem fixing_accepted {v : K} (h : choice j = some v) : s.fixing choice [j] =
    { s with
      lp := s.lp.fixing fun i => if i = j then some v else none
      trace := s.trace ++ [.rounded j v] } := by
  have hlp : (fun i => if i ∈ [j] then choice i else none) = fun i => if i = j then some v else none := by
    funext i
    by_cases hij : i = j <;> simp [hij, h]
  rw [fixing, hlp]
  simp [h]

theorem relaxing_nil : s.relaxing [] = s := by
  simp [relaxing, Model.relaxing_nil]

theorem relaxing_append {more : List Nat} :
    (s.relaxing order).relaxing more = s.relaxing (order ++ more) := by
  simp [relaxing, Model.relaxing_append]

end Run

/-- The rule changes nothing, and what it looks at settles its answer. -/
def LooksAt (view : Nat → Run P K → σ) (rule : Nat → Action P K β) : Prop :=
  ∃ verdict : Nat → σ → Except (Fault K) β,
    ∀ j s, rule j s = (liftM (verdict j (view j s)) : Action P K β) s

namespace LooksAt

variable {view : Nat → Run P K → σ} {rule : Nat → Action P K β} {j : Nat} {s t : Run P K}

theorem exists_verdict (h : LooksAt view rule) : ∃ verdict : Nat → σ → Except (Fault K) β,
    (∀ {j s b t}, Returns (rule j) s b t ↔ verdict j (view j s) = .ok b ∧ s = t) ∧
      ∀ {j s e t}, Fails (rule j) s e t ↔ verdict j (view j s) = .error e ∧ s = t := by
  obtain ⟨verdict, h⟩ := h
  refine ⟨verdict, fun {j s b t} => ?_, fun {j s e t} => ?_⟩
  · unfold Returns
    rw [h]
    exact returns_lift
  · unfold Fails
    rw [h]
    exact fails_lift

theorem returns_of_view {b : β} (h : LooksAt view rule) (hview : view j t = view j s)
    (hs : Returns (rule j) s b s) : Returns (rule j) t b t := by
  obtain ⟨verdict, hreturns, -⟩ := h.exists_verdict
  rw [hreturns] at hs ⊢
  exact ⟨hview ▸ hs.1, rfl⟩

theorem fails_of_view {e : Fault K} (h : LooksAt view rule) (hview : view j t = view j s)
    (hs : Fails (rule j) s e s) : Fails (rule j) t e t := by
  obtain ⟨verdict, -, hfails⟩ := h.exists_verdict
  rw [hfails] at hs ⊢
  exact ⟨hview ▸ hs.1, rfl⟩

theorem returns_of_yields [DecidableEq β] {b : β} (h : LooksAt view rule)
    (hb : yields (rule j) s (· = b) = true) : Returns (rule j) s b s := by
  obtain ⟨a, t, ha, hab⟩ := exists_returns hb
  obtain rfl := of_decide_eq_true hab
  obtain ⟨verdict, hreturns, -⟩ := h.exists_verdict
  exact hreturns.mpr ⟨(hreturns.mp ha).1, rfl⟩

end LooksAt

section Rules

variable [Roundable P K]

theorem RoundRule.looksAt_equals (value : K) :
    LooksAt (P := P) Run.viewColumn (RoundRule.equals value).apply := by
  refine ⟨fun _ v => do
    return if v.tolerance.equal (← v.value) value then some value else none, fun j s => ?_⟩
  show (do
    let x ← s.lp.columnValue j
    return if (← RoundRule.tolerance).equal x value then some value else none :
      Action P K (Option K)) s = _
  unfold Run.viewColumn
  cases s.lp.columnValue j <;> rfl

theorem RoundRule.looksAt_firstOf {view : Nat → Run P K → σ} (rules : List (RoundRule K))
    (h : ∀ rule ∈ rules, LooksAt view rule.apply) : LooksAt view (applyFirst rules) := by
  induction rules with
  | nil => exact ⟨fun _ _ => .ok none, fun _ _ => by rw [applyFirst]; rfl⟩
  | cons rule rest ih =>
    obtain ⟨first, hfirst⟩ := h rule List.mem_cons_self
    obtain ⟨later, hlater⟩ := ih fun r hr => h r (List.mem_cons_of_mem _ hr)
    refine ⟨fun j v => do (← first j v).elim (later j v) fun value => return some value,
      fun j s => ?_⟩
    simp only [applyFirst]
    cases hv : first j (view j s) with
    | error e =>
      show EStateM.bind (rule.apply j) _ s = _
      rw [EStateM.bind, hfirst, hv]
      rfl
    | ok r =>
      have hask : Returns (rule.apply j) s r s := by
        unfold Returns
        rw [hfirst, hv]
        rfl
      rw [hask.bind_apply]
      cases r with
      | none => exact hlater j s
      | some v => rfl

theorem RoundRule.looksAt_zeroThenOne :
    LooksAt (P := P) Run.viewColumn (zeroThenOne (K := K)).apply := by
  have hrules : ∀ rule ∈ [RoundRule.equals (0 : K), .equals 1],
      LooksAt (P := P) Run.viewColumn rule.apply := by
    intro rule hrule
    rcases List.mem_cons.mp hrule with rfl | hrule
    · exact looksAt_equals 0
    · obtain rfl := List.mem_singleton.mp hrule
      exact looksAt_equals 1
  obtain ⟨verdict, h⟩ := looksAt_firstOf _ hrules
  exact ⟨verdict, fun j s => by rw [← h j s, zeroThenOne, apply]⟩

theorem Assignment.looksAt_relaxable :
    LooksAt (fun _ => Run.viewRows) (Assignment.relaxable (K := K)) := by
  refine ⟨fun i v => bif v.problem.isMachineRow i then do
      let degree ← v.degree i
      if degree ≤ 1 then return true
      if degree = 2 then return v.problem.tolerance.atLeast (← v.sum i) 1
      return false
    else return false, fun i s => ?_⟩
  have hproblem : Returns Action.problem s s.problem s := Action.returns_problem.mpr ⟨rfl, rfl⟩
  rw [Assignment.relaxable, hproblem.bind_apply]
  simp only [Run.viewRows]
  cases s.problem.isMachineRow i with
  | false => rfl
  | true =>
    show (do
      let degree ← s.lp.rowDegree i
      if degree ≤ 1 then return true
      if degree = 2 then return s.problem.tolerance.atLeast (← s.lp.rowSum i) 1
      return false : Action (Assignment K) K Bool) s = _
    cases s.lp.rowDegree i with
    | error e => rfl
    | ok degree =>
      -- only two open jobs make it read the sum
      rcases degree with _ | _ | _ | n
      · rfl
      · rfl
      · show (do return s.problem.tolerance.atLeast (← s.lp.rowSum i) 1 :
          Action (Assignment K) K Bool) s = _
        cases s.lp.rowSum i <;> rfl
      · rfl

theorem BoundedTree.looksAt_relaxable {S : Type} :
    LooksAt (fun _ => Run.viewRows) (BoundedTree.relaxable (K := K) (S := S)) := by
  refine ⟨fun i v => (v.problem.rowVertex i).elim (.ok false) fun u => do
    let support := (← v.degree i) + v.problem.committedDegree u
    return decide ((support : Int) ≤ (v.problem.bound? u).getD 0 + 1), fun i s => ?_⟩
  have hproblem : Returns Action.problem s s.problem s := Action.returns_problem.mpr ⟨rfl, rfl⟩
  rw [BoundedTree.relaxable, hproblem.bind_apply]
  simp only [Run.viewRows]
  cases s.problem.rowVertex i with
  | none => rfl
  | some u =>
    show (do
      let support := (← s.lp.rowDegree i) + s.problem.committedDegree u
      return decide ((support : Int) ≤ (s.problem.bound? u).getD 0 + 1) :
        Action (BoundedTree K S) K Bool) s = _
    cases s.lp.rowDegree i <;> rfl

end Rules

namespace Engine

variable [Roundable P K] {s : Run P K}

section Rounding

variable {rule : Nat → Action P K (Option K)} {choice : Nat → Option K} {order : List Nat}

/-- Visiting open columns in any order fixes those that the rule accepts at the start. -/
theorem returns_roundColumns (hrule : LooksAt Run.viewColumn rule) (hnodup : order.Nodup)
    (hopen : ∀ j ∈ order, j ∈ s.lp.activeColumns)
    (hanswer : ∀ j ∈ order, Returns (rule j) s (choice j) s) (n : Nat) :
    Returns (roundColumns rule order n) s (n + (order.filterMap choice).length)
      (s.fixing choice order) := by
  induction order generalizing s n with
  | nil => simp [roundColumns, Run.fixing_nil]
  | cons j rest ih =>
    obtain ⟨hj, hrest⟩ := List.nodup_cons.mp hnodup
    -- whatever becomes of this column, the others are still open and look as before
    have hopen' : ∀ i ∈ rest, i ∈ (s.fixing choice [j]).lp.activeColumns := fun i hi =>
      Model.mem_activeColumns_fixing.mpr ⟨hopen i (List.mem_cons_of_mem _ hi), by
        rw [if_neg]
        simpa using ne_of_mem_of_not_mem hi hj⟩
    have hlater (n : Nat) := ih hrest hopen' (fun i hi =>
      hrule.returns_of_view Run.viewColumn_fixing (hanswer i (List.mem_cons_of_mem _ hi))) n
    simp only [Run.fixing_append, List.singleton_append] at hlater
    refine returns_bind.mpr ⟨choice j, s, hanswer j List.mem_cons_self, ?_⟩
    cases hchoice : choice j with
    | none => simpa [Run.fixing_declined hchoice, hchoice] using hlater n
    | some v =>
      have hfix := Model.returns_fixing (v := v) (hopen j List.mem_cons_self)
      have hnext := hlater (n + 1)
      rw [Run.fixing_accepted hchoice, Nat.add_right_comm] at hnext
      simp only [List.filterMap_cons_some hchoice, returns_bind, Action.returns_onModel,
        Action.returns_note]
      exact ⟨(), _, ⟨_, hfix, rfl⟩, (), _, rfl, hnext⟩

theorem roundColumns_append (before after : List Nat) (n : Nat) :
    roundColumns rule (before ++ after) n = roundColumns rule before n >>= roundColumns rule after := by
  induction before generalizing n with
  | nil => simp [roundColumns]
  | cons j rest ih =>
    simp only [List.cons_append, roundColumns, bind_assoc]
    refine bind_congr fun r => ?_
    cases r with
    | none => exact ih n
    | some v => simp [ih]

theorem fails_roundColumns (hrule : LooksAt Run.viewColumn rule) (hnodup : order.Nodup)
    (hopen : ∀ j ∈ order, j ∈ s.lp.activeColumns)
    (hanswer : ∀ j ∈ order, Returns (rule j) s (choice j) s) {j : Nat} {e : Fault K}
    (hj : Fails (rule j) s e s) (after : List Nat) (n : Nat) :
    Fails (roundColumns rule (order ++ j :: after) n) s e (s.fixing choice order) := by
  rw [roundColumns_append]
  refine fails_bind.mpr (.inr ⟨_, _, returns_roundColumns hrule hnodup hopen hanswer n, ?_⟩)
  exact fails_bind.mpr (.inl (hrule.fails_of_view Run.viewColumn_fixing hj))

end Rounding

section Relaxing

variable {p : Policies P K} {accept : Nat → Bool} {order : List Nat}

/-- Visiting kept rows in any order relaxes the first of those that the rule accepts at the start,
as many as the limit lets pass. -/
theorem returns_relaxRows (hrule : LooksAt (fun _ => Run.viewRows) p.relax)
    (hnodup : order.Nodup) (hkept : ∀ i ∈ order, i ∈ s.lp.activeRows)
    (hanswer : ∀ i ∈ order, Returns (p.relax i) s (accept i) s) {n room : Nat}
    (hfree : ∀ k < room, p.limit (n + k) = false)
    (hfull : (order.filter accept).length ≤ room ∨ p.limit (n + room) = true) :
    Returns (relaxRows p order n) s (n + ((order.filter accept).take room).length)
      (s.relaxing ((order.filter accept).take room)) := by
  -- `room` is what the limit still lets pass, and an accepted row uses up one of it
  induction order generalizing s n room with
  | nil => simp [relaxRows, Run.relaxing_nil]
  | cons i rest ih =>
    obtain ⟨hi, hrest⟩ := List.nodup_cons.mp hnodup
    have hanswer' : ∀ k ∈ rest, Returns (p.relax k) s (accept k) s :=
      fun k hk => hanswer k (List.mem_cons_of_mem _ hk)
    cases hlimit : p.limit n with
    | true =>
      have hroom : room = 0 := by
        by_contra hne
        have hopen := hfree 0 (Nat.pos_of_ne_zero hne)
        simp [hlimit] at hopen
      simp [relaxRows, hlimit, hroom, Run.relaxing_nil]
    | false =>
      rw [relaxRows, hlimit, if_neg Bool.false_ne_true]
      refine returns_bind.mpr ⟨accept i, s, hanswer i List.mem_cons_self, ?_⟩
      cases haccept : accept i with
      | false =>
        simp only [List.filter_cons, haccept, Bool.false_eq_true, if_false] at hfull ⊢
        exact ih hrest (fun k hk => hkept k (List.mem_cons_of_mem _ hk)) hanswer' hfree hfull
      | true =>
        simp only [List.filter_cons, haccept, if_true] at hfull ⊢
        obtain _ | room := room
        · simp [hlimit] at hfull
        have hfree' : ∀ k < room, p.limit (n + 1 + k) = false := by
          intro k hk
          have hnext := hfree (k + 1) (Nat.succ_lt_succ hk)
          rwa [Nat.add_right_comm]
        have hfull' : (rest.filter accept).length ≤ room ∨ p.limit (n + 1 + room) = true := by
          rw [List.length_cons, Nat.succ_le_succ_iff] at hfull
          rwa [Nat.add_right_comm]
        -- the other rows are still kept and look as before
        have hkept' : ∀ k ∈ rest, k ∈ (s.relaxing [i]).lp.activeRows := fun k hk =>
          Model.mem_activeRows_relaxing.mpr ⟨hkept k (List.mem_cons_of_mem _ hk), by
            simpa using ne_of_mem_of_not_mem hk hi⟩
        have hrelax := Model.returns_relaxing (hkept i List.mem_cons_self)
        have hlater := ih hrest hkept' (fun k hk =>
          hrule.returns_of_view Run.viewRows_relaxing (hanswer' k hk)) hfree' hfull'
        rw [Run.relaxing_append, List.singleton_append, Nat.add_right_comm] at hlater
        simp only [List.take_succ_cons, returns_bind, Action.returns_onModel, Action.returns_note]
        exact ⟨(), _, ⟨_, hrelax, rfl⟩, (), _, rfl, hlater⟩

theorem relaxRows_limit {n : Nat} (h : p.limit n = true) (rows : List Nat) :
    relaxRows p rows n = return n := by
  cases rows with
  | nil => rfl
  | cons => rw [relaxRows, if_pos h]

theorem relaxRows_append (before after : List Nat) (n : Nat) :
    relaxRows p (before ++ after) n = relaxRows p before n >>= relaxRows p after := by
  induction before generalizing n with
  | nil => simp [relaxRows]
  | cons i rest ih =>
    simp only [List.cons_append, relaxRows]
    cases hlimit : p.limit n with
    | true => simp [relaxRows_limit hlimit]
    | false =>
      simp only [Bool.false_eq_true, if_false, bind_assoc]
      refine bind_congr fun b => ?_
      cases b <;> simp [ih]

theorem fails_relaxRows (hrule : LooksAt (fun _ => Run.viewRows) p.relax) (hnodup : order.Nodup)
    (hkept : ∀ i ∈ order, i ∈ s.lp.activeRows)
    (hanswer : ∀ i ∈ order, Returns (p.relax i) s (accept i) s)
    (hfree : ∀ n ≤ (order.filter accept).length, p.limit n = false) {i : Nat} {e : Fault K}
    (hi : Fails (p.relax i) s e s) (after : List Nat) :
    Fails (relaxRows p (order ++ i :: after) 0) s e (s.relaxing (order.filter accept)) := by
  have hbefore := returns_relaxRows (n := 0) hrule hnodup hkept hanswer
    (fun n hn => by rw [Nat.zero_add]; exact hfree n hn.le) (.inl le_rfl)
  rw [List.take_length, Nat.zero_add] at hbefore
  rw [relaxRows_append]
  refine fails_bind.mpr (.inr ⟨_, _, hbefore, ?_⟩)
  rw [relaxRows, hfree _ le_rfl, if_neg Bool.false_ne_true]
  exact fails_bind.mpr (.inl (hrule.fails_of_view Run.viewRows_relaxing hi))

theorem limit_of_some {k : Int} {limit : Nat → Bool}
    (h : relaxationLimit (some k) = (.ok limit : Except (Fault K) (Nat → Bool))) (n : Nat) :
    (limit n = true ↔ k.toNat ≤ n) ∧ 0 < k.toNat := by
  by_cases hk : k < 1
  · simp [relaxationLimit, hk] at h
  · simp only [relaxationLimit, hk, if_false, Except.ok.injEq] at h
    rw [← h, decide_eq_true_iff]
    omega

theorem returns_relaxRows_limited (hrule : LooksAt (fun _ => Run.viewRows) p.relax) {k : Int}
    (hlimit : relaxationLimit (some k) = (.ok p.limit : Except (Fault K) (Nat → Bool)))
    (hnodup : order.Nodup) (hkept : ∀ i ∈ order, i ∈ s.lp.activeRows)
    (hanswer : ∀ i ∈ order, Returns (p.relax i) s (accept i) s) {after : List Nat}
    (hafter : after = [] ∨ k ≤ (order.filter accept).length) :
    Returns (relaxRows p (order ++ after) 0) s ((order.filter accept).take k.toNat).length
      (s.relaxing ((order.filter accept).take k.toNat)) := by
  have hfull (n : Nat) : p.limit n = true ↔ k.toNat ≤ n := (limit_of_some hlimit n).1
  have hbefore := returns_relaxRows (n := 0) hrule hnodup hkept hanswer
    (fun n hn => by
      rw [Nat.zero_add, Bool.eq_false_iff, Ne, hfull]
      exact not_le.mpr hn)
    (.inr ((hfull _).mpr (Nat.zero_add _).ge))
  rw [Nat.zero_add] at hbefore
  rw [relaxRows_append]
  refine returns_bind.mpr ⟨_, _, hbefore, ?_⟩
  rcases hafter with rfl | hreached
  · simp [relaxRows]
  · have hcount : p.limit ((order.filter accept).take k.toNat).length = true := by
      rw [hfull, List.length_take]
      omega
    rw [relaxRows_limit hcount]
    exact returns_pure.mpr ⟨rfl, rfl⟩

end Relaxing

/-- A round pass goes by the state at its start. An accepted column gets the value that it was
accepted with there, whatever the order of the visits, and the first column without an answer ends
the pass. -/
structure RoundsAtStart (p : Policies P K) (rule : Nat → Action P K (Option K)) (s : Run P K) :
    Prop where
  returns : ∀ choice, (∀ j ∈ s.lp.activeColumns, Returns (rule j) s (choice j) s) →
    Returns (round p) s (s.lp.activeColumns.filterMap choice).length
      (s.fixing choice s.lp.activeColumns)
  any_order : ∀ choice order, order.Perm s.lp.activeColumns →
    (∀ j ∈ s.lp.activeColumns, Returns (rule j) s (choice j) s) →
    Returns (roundColumns rule order 0) s (s.lp.activeColumns.filterMap choice).length
        (s.fixing choice order) ∧
      (s.fixing choice order).lp = s.lp.fixing choice
  fails : ∀ choice before j after e, s.lp.activeColumns = before ++ j :: after →
    (∀ i ∈ before, Returns (rule i) s (choice i) s) → Fails (rule j) s e s →
    Fails (round p) s e (s.fixing choice before)

/-- A relax pass goes by the state at its start. Without a limit all accepted rows go, whatever the
order of the visits, and with one the first of them; a row without an answer ends the pass, unless
the limit is reached before it. -/
structure RelaxesAtStart (p : Policies P K) (s : Run P K) : Prop where
  returns : ∀ accept, (∀ n, p.limit n = false) →
    (∀ i ∈ s.lp.activeRows, Returns (p.relax i) s (accept i) s) →
    Returns (relax p) s (s.lp.activeRows.filter accept).length
      (s.relaxing (s.lp.activeRows.filter accept))
  any_order : ∀ accept order, (∀ n, p.limit n = false) → order.Perm s.lp.activeRows →
    (∀ i ∈ s.lp.activeRows, Returns (p.relax i) s (accept i) s) →
    Returns (relaxRows p order 0) s (s.lp.activeRows.filter accept).length
        (s.relaxing (order.filter accept)) ∧
      (s.relaxing (order.filter accept)).lp = s.lp.relaxing (s.lp.activeRows.filter accept)
  limited : ∀ accept before after k,
    relaxationLimit (some k) = (.ok p.limit : Except (Fault K) (Nat → Bool)) →
    s.lp.activeRows = before ++ after → (∀ i ∈ before, Returns (p.relax i) s (accept i) s) →
    after = [] ∨ k ≤ (before.filter accept).length →
    Returns (relax p) s ((before.filter accept).take k.toNat).length
      (s.relaxing ((before.filter accept).take k.toNat))
  fails : ∀ accept before i after e, s.lp.activeRows = before ++ i :: after →
    (∀ n ≤ (before.filter accept).length, p.limit n = false) →
    (∀ k ∈ before, Returns (p.relax k) s (accept k) s) → Fails (p.relax i) s e s →
    Fails (relax p) s e (s.relaxing (before.filter accept))

theorem roundsAtStart {p : Policies P K} {rule : Nat → Action P K (Option K)}
    (hp : p.rounding = .perColumn rule) (hrule : LooksAt Run.viewColumn rule) :
    RoundsAtStart p rule s := by
  have hround : round p s = roundColumns rule s.lp.activeColumns 0 s := by
    unfold round
    rw [hp]
    rfl
  have hnodup : s.lp.activeColumns.Nodup := Model.nodup_positions _ _
  constructor
  · intro choice hanswer
    have hpass := returns_roundColumns hrule hnodup (fun _ => id) hanswer 0
    unfold Returns
    rwa [hround, ← Nat.zero_add (List.length _)]
  · intro choice order hperm hanswer
    have hpass := returns_roundColumns hrule (hperm.nodup_iff.mpr hnodup)
      (fun j hj => hperm.mem_iff.mp hj) (fun j hj => hanswer j (hperm.mem_iff.mp hj)) 0
    rw [Nat.zero_add, (hperm.filterMap choice).length_eq] at hpass
    exact ⟨hpass, Model.fixing_congr fun j hj => if_pos (hperm.mem_iff.mpr hj)⟩
  · intro choice before j after e hsplit hanswer hj
    rw [hsplit, List.nodup_append] at hnodup
    have hopen : ∀ i ∈ before, i ∈ s.lp.activeColumns :=
      fun i hi => hsplit ▸ List.mem_append_left _ hi
    have hpass := fails_roundColumns hrule hnodup.1 hopen hanswer hj after 0
    unfold Fails
    rwa [hround, hsplit]

theorem relaxesAtStart {p : Policies P K} (hrule : LooksAt (fun _ => Run.viewRows) p.relax) :
    RelaxesAtStart p s := by
  have hrelax : relax p s = relaxRows p s.lp.activeRows 0 s := rfl
  have hnodup : s.lp.activeRows.Nodup := Model.nodup_positions _ _
  have hunlimited : ∀ accept order, (∀ n, p.limit n = false) → order.Perm s.lp.activeRows →
      (∀ i ∈ s.lp.activeRows, Returns (p.relax i) s (accept i) s) →
      Returns (relaxRows p order 0) s (order.filter accept).length
        (s.relaxing (order.filter accept)) := by
    intro accept order hlimit hperm hanswer
    have hpass := returns_relaxRows (n := 0) hrule (hperm.nodup_iff.mpr hnodup)
      (fun i hi => hperm.mem_iff.mp hi) (fun i hi => hanswer i (hperm.mem_iff.mp hi))
      (fun k _ => hlimit _) (.inl le_rfl)
    rwa [List.take_length, Nat.zero_add] at hpass
  constructor
  · intro accept hlimit hanswer
    exact hunlimited accept _ hlimit (.refl _) hanswer
  · intro accept order hlimit hperm hanswer
    have hpass := hunlimited accept order hlimit hperm hanswer
    rw [(hperm.filter accept).length_eq] at hpass
    exact ⟨hpass, Model.relaxing_congr fun i => (hperm.filter accept).mem_iff⟩
  · intro accept before after k hlimit hsplit hanswer hafter
    rw [hsplit, List.nodup_append] at hnodup
    have hpass := returns_relaxRows_limited hrule hlimit hnodup.1
      (fun i hi => hsplit ▸ List.mem_append_left _ hi) hanswer hafter
    unfold Returns
    rwa [hrelax, hsplit]
  · intro accept before i after e hsplit hlimit hanswer hi
    rw [hsplit, List.nodup_append] at hnodup
    have hpass := fails_relaxRows hrule hnodup.1
      (fun i hi => hsplit ▸ List.mem_append_left _ hi) hanswer hlimit hi after
    unfold Fails
    rwa [hrelax, hsplit]

/-- A pass decides on every column, or on every row, by the state at its start, if its rules look at
nothing else than tolerance and value of the column, or the rows, the constants, the values and the
problem. Such rules are the one that rounds next to zero and one, and those that relax the machine
rows of an assignment and the degree rows of a bounded tree. -/
theorem pass_decides_at_start {S : Type} (p : Policies P K) (s : Run P K) :
    (∀ rule, p.rounding = .perColumn rule → LooksAt Run.viewColumn rule → RoundsAtStart p rule s) ∧
    (LooksAt (fun _ => Run.viewRows) p.relax → RelaxesAtStart p s) ∧
    LooksAt (P := P) Run.viewColumn (RoundRule.zeroThenOne (K := K)).apply ∧
    LooksAt (fun _ => Run.viewRows) (Assignment.relaxable (K := K)) ∧
    LooksAt (fun _ => Run.viewRows) (BoundedTree.relaxable (K := K) (S := S)) :=
  ⟨fun _ => roundsAtStart, relaxesAtStart, RoundRule.looksAt_zeroThenOne,
    Assignment.looksAt_relaxable, BoundedTree.looksAt_relaxable⟩

def halfway : Run (Assignment ℚ) ℚ where
  problem := Assignment.twins
  lp := { Assignment.twins.model with solution := some { values := [1, 0, 1 / 2, 1 / 2], objective := 0 } }

theorem halfway_passes :
    let _ := Assignment.twinsBackend
    let choice : Nat → Option ℚ := fun j => if j = 0 then some 1 else if j = 1 then some 0 else none
    Returns (round Assignment.policies) halfway 2 (halfway.fixing choice [0, 1, 2, 3]) ∧
      Returns (roundColumns RoundRule.zeroThenOne.apply [3, 2, 1, 0] 0) halfway 2
        (halfway.fixing choice [3, 2, 1, 0]) ∧
      Returns (relax Assignment.policies) halfway 1 (halfway.relaxing [2]) := by
  intro _ choice
  obtain ⟨hround, hrelax, hrule, hrows, -⟩ :=
    pass_decides_at_start (S := Unit) (Assignment.policies (K := ℚ)) halfway
  have hcolumns : halfway.lp.activeColumns = [0, 1, 2, 3] := by decide +kernel
  have hkept : halfway.lp.activeRows = [0, 1, 2, 3] := by decide +kernel
  have hchoice : ∀ j ∈ halfway.lp.activeColumns,
      Returns (RoundRule.zeroThenOne.apply j) halfway (choice j) halfway := by
    rw [hcolumns]
    have hyields : ∀ j ∈ [0, 1, 2, 3], yields (RoundRule.zeroThenOne.apply j) halfway
        (· = choice j) = true := by decide +kernel
    exact fun j hj => hrule.returns_of_yields (hyields j hj)
  have haccept : ∀ i ∈ halfway.lp.activeRows,
      Returns (Assignment.relaxable i) halfway (i = 2) halfway := by
    rw [hkept]
    have hyields : ∀ i ∈ [0, 1, 2, 3], yields (Assignment.relaxable i) halfway
        (· = decide (i = 2)) = true := by decide +kernel
    exact fun i hi => hrows.returns_of_yields (hyields i hi)
  have hrounds := hround _ rfl hrule
  have hrelaxes := (hrelax hrows).returns _ (fun _ => rfl) haccept
  have hpass := hrounds.returns choice hchoice
  have hback := (hrounds.any_order choice [3, 2, 1, 0] (by rw [hcolumns]; decide) hchoice).1
  rw [hcolumns] at hpass hback
  rw [hkept] at hrelaxes
  exact ⟨hpass, hback, hrelaxes⟩

end Engine

end LPRounding
