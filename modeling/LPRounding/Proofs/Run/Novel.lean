import LPRounding.Proofs.Run.Fresh
import LPRounding.Proofs.Run.Generation
import LPRounding.Proofs.Run.Halting

/-!
Rows that are generated once in a whole run. Where each row that is added is violated at the point
that was rejected, and no added row is relaxed later, every call of row generation adds rows that
were not there before; a family with finitely many rows ends each call and all calls together.
-/

namespace LPRounding

set_option linter.unusedSectionVars false

variable {P S C N K : Type} [Field K] [LinearOrder K] [IsStrictOrderedRing K] [FloorRing K]

namespace Model

/-- The rows from the `k`-th on are rows of a family, all of them kept and no two the same. -/
structure Novel (k : Nat) (family : Set (Row K)) (m : Model K) : Prop where
  old : k ≤ m.rows.length
  rows : ∀ r ∈ m.rows.drop k, r ∈ family ∧ r.relaxed = false
  nodup : (m.rows.drop k).Nodup

variable {k : Nat} {family : Set (Row K)} {m m' : Model K} {r : Row K}

theorem Novel.start (family : Set (Row K)) (m : Model K) : m.Novel m.rows.length family :=
  ⟨le_rfl, by simp, by simp⟩

theorem Novel.of_rows (h : m.Novel k family) (hrows : m'.rows = m.rows) : m'.Novel k family :=
  ⟨hrows ▸ h.old, hrows ▸ h.rows, hrows ▸ h.nodup⟩

theorem Novel.append (h : m.Novel k family) (hr : r ∈ family) (hk : r.relaxed = false)
    (hnew : r ∉ m.keptRows) : Novel k family { m with rows := m.rows ++ [r] } := by
  have hdrop : (m.rows ++ [r]).drop k = m.rows.drop k ++ [r] := List.drop_append_of_le_length h.old
  refine ⟨?_, fun r' hr' => ?_, ?_⟩
  · rw [List.length_append]
    exact h.old.trans (Nat.le_add_right _ _)
  · rw [hdrop, List.mem_append, List.mem_singleton] at hr'
    rcases hr' with hr' | rfl
    · exact h.rows r' hr'
    · exact ⟨hr, hk⟩
  · rw [hdrop, List.nodup_append]
    refine ⟨h.nodup, List.nodup_singleton r, fun a ha b hb => ?_⟩
    rintro rfl
    obtain rfl := List.mem_singleton.mp hb
    exact hnew (mem_keptRows.mpr ⟨List.mem_of_mem_drop ha, hk⟩)

theorem Novel.relax (h : m.Novel k family) {i : Nat} (hi : i < k)
    (hf : Returns (relaxRow i) m () m') : m'.Novel k family := by
  obtain ⟨r, -, -, rfl⟩ := returns_relaxRow.mp hf
  have hdrop : (m.rows.set i { r with relaxed := true }).drop k = m.rows.drop k := by
    rw [List.drop_set, if_pos hi]
  exact ⟨h.old.trans_eq List.length_set.symm, hdrop.symm ▸ h.rows, hdrop.symm ▸ h.nodup⟩

theorem Novel.length_le (h : m.Novel k family) (hfin : family.Finite) :
    m.rows.length ≤ k + family.ncard := by
  classical
  have hle : (m.rows.drop k).toFinset.card ≤ family.ncard := by
    rw [← Set.ncard_coe_finset]
    exact Set.ncard_le_ncard (fun r hr => (h.rows r (by simpa using hr)).1) hfin
  rw [List.toFinset_card_of_nodup h.nodup, List.length_drop] at hle
  omega

end Model

namespace Oracle

variable [Dice S K] [Backend K] [Roundable P K] {h : Home P K S C N} {k : Checker P K C N}
  {tolerance : P → Tolerance K} {family : P → Set (Row K)} {sane : P → Prop}
  {kept : P → Model K → Prop} {s t : Run P K} {rows : Set (Row K)} {n : Nat}

/-- What a call has kept when it stands at an optimal point. -/
structure Fresh (family : P → Set (Row K)) (sane : P → Prop) (kept : P → Model K → Prop)
    (rows : Set (Row K)) (n : Nat) (s : Run P K) : Prop where
  sane : sane s.problem
  family : family s.problem = rows
  kept : kept s.problem s.lp
  loaded : s.lp.loaded = true
  novel : s.lp.Novel n rows

theorem Fresh.solveModel_ends (w : Keeps h k tolerance kept)
    (hanswering : (Backend.solver : Solver K).Answering) (hs : Fresh family sane kept rows n s) :
    Ends Action.solveModel s (fun st t => t.lp.Novel n rows ∧
      t.lp.rows.length = s.lp.rows.length ∧
      (st = .optimal → Fresh family sane kept rows n t ∧ t.lp.Solved)) fun _ => False := by
  obtain ⟨st, t, ht⟩ := hanswering.returns rfl hs.loaded
  obtain ⟨hq, hm⟩ := Action.returns_solveModel ht
  obtain ⟨solution, hlp, -⟩ := Model.returns_solve hm
  have hrows : t.lp.rows = s.lp.rows := by rw [hlp]
  have hnovel := hs.novel.of_rows hrows
  refine ht.ends.mpr ⟨hnovel, congrArg List.length hrows, ?_⟩
  rintro rfl
  obtain ⟨hkept, hsolved⟩ := w.solveModel hs.kept ht
  refine ⟨⟨hq ▸ hs.sane, hq ▸ hs.family, hkept, ?_, hnovel⟩, hsolved⟩
  rw [hlp]
  exact hs.loaded

theorem Fresh.resume_ends (w : Keeps h k tolerance kept)
    (hanswering : (Backend.solver : Solver K).Answering) (hs : Fresh family sane kept rows n s)
    {passes : Nat} (hnext : ∀ t, Fresh family sane kept rows n t → t.lp.Solved →
      t.lp.rows.length = s.lp.rows.length →
      Ends (generateRows passes .optimal) t (fun _ u => u.lp.Novel n rows) fun _ => False) :
    Ends (Action.solveModel >>= generateRows passes) s (fun _ t => t.lp.Novel n rows)
      fun _ => False := by
  rw [ends_bind]
  refine (hs.solveModel_ends w hanswering).mono (fun st t _ h => ?_) fun _ => False.elim
  obtain ⟨hnovel, hlen, hopt⟩ := h
  cases st with
  | optimal => exact hnext t (hopt rfl).1 (hopt rfl).2 hlen
  | infeasible | unbounded =>
    rw [generateRows.eq_3 _ _ (by simp) (by simp), ends_bind, Action.ends_note, ends_pure]
    exact hnovel

theorem Fresh.extend (c : Cuts h k tolerance family sane) (w : Keeps h k tolerance kept)
    (hs : Fresh family sane kept rows n s) (hx : s.lp.Solved) {u v : Run P K} {i : Nat}
    (hf : Returns Roundable.feasible s false u) (hr : Returns Roundable.separate u i v) :
    Fresh family sane kept rows n v ∧ v.lp.rows.length = s.lp.rows.length + 1 := by
  obtain ⟨⟨o, ho⟩, r, hlp, hopen, hmem, hnew⟩ := c.extend hs.sane hx hf hr
  refine ⟨⟨ho ▸ (c.sane_set _ _).mpr hs.sane, ?_, w.extend hs.kept hf hr, ?_, ?_⟩, ?_⟩
  · rw [ho, c.family_set, hs.family]
  · rw [hlp]
    exact hs.loaded
  · rw [hlp]
    exact hs.novel.append (hs.family ▸ hmem) hopen hnew
  · rw [hlp, List.length_append]
    rfl

theorem Fresh.generateRows_ends (c : Cuts h k tolerance family sane) (w : Keeps h k tolerance kept)
    (hm : Measurable k kept) (hanswering : (Backend.solver : Solver K).Answering)
    (hfin : rows.Finite) {passes : Nat} (hs : Fresh family sane kept rows n s) (hx : s.lp.Solved)
    (hpasses : n + rows.ncard < s.lp.rows.length + passes) :
    Ends (generateRows passes .optimal) s (fun _ t => t.lp.Novel n rows) fun _ => False := by
  induction passes generalizing s with
  | zero => exact absurd (hs.novel.length_le hfin) (by omega)
  | succ passes ih =>
    obtain ⟨m, cs, hp, hc⟩ := hm hs.kept hx
    rw [generateRows, ends_bind, c.feasible]
    refine (feasible_ends hp hc).mono (fun b t ht h => ?_) fun _ => False.elim
    obtain ⟨-, o, ho, hv⟩ := h
    have hlp := (returns_feasible ht).1
    cases b with
    | true => exact hs.novel.of_rows (congrArg Model.rows hlp)
    | false =>
      obtain ⟨v, hv⟩ := hv rfl
      have hv : (h.get t.problem).violation = some v := by rw [ho, c.get_set, hv]
      simp only [Bool.false_eq_true, if_false, ends_bind, c.separate]
      refine (separate_ends hv).mono (fun i u hu _ => ?_) fun _ => False.elim
      obtain ⟨hfresh, hlen⟩ := hs.extend c w hx (c.feasible ▸ ht) (c.separate ▸ hu)
      exact ends_bind.mp <| hfresh.resume_ends w hanswering fun x hx hsolved hlen' =>
        ih hx hsolved (by omega)

theorem Fresh.generating_ends (c : Cuts h k tolerance family sane) (w : Keeps h k tolerance kept)
    (hm : Measurable k kept) (hanswering : (Backend.solver : Solver K).Answering)
    (hfin : rows.Finite) (hs : Fresh family sane kept rows n s)
    (hpasses : rows.ncard < Backend.passes K) :
    Ends SolveRule.generating.apply s (fun _ t => t.lp.Novel n rows) fun _ => False := by
  have hold := hs.novel.old
  exact hs.resume_ends w hanswering fun t ht hx hlen =>
    ht.generateRows_ends c w hm hanswering hfin hx (by omega)

end Oracle

namespace Engine

variable [Roundable P K] {p : Policies P K} {s t : Run P K} {rows : Set (Row K)} {k : Nat}

/-- Where each solve adds rows that were not there before and only old rows are relaxed, all rows
that a run has added are different. -/
theorem Reached.novel (hp : p.Restrained)
    (hsolves : ∀ {a : Stage K × Run P K} {first : Bool} {st : Status} {t : Run P K},
      Walk p p.ask (.begun, s) a → Step p p.ask a (.solved first st, t) →
      a.2.lp.Novel k rows → t.lp.Novel k rows)
    (hrelax : ∀ {n i l : Nat} {rest : List Nat} {t u : Run P K},
      Reached p p.ask s (.relaxing n (i :: rest) l) t → Returns (p.relax i) t true u → i < k)
    (hs : s.lp.Novel k rows) {stage : Stage K} (h : Reached p p.ask s stage t) :
    t.lp.Novel k rows := by
  refine h.induct hs fun {a b} hwalk hstep ha => ?_
  cases hstep.move hp with
  | solve | resolve => exact hsolves hwalk hstep ha
  | fix _ hf =>
    obtain ⟨c, -, -, hlp⟩ := Model.returns_fixColumn.mp hf
    exact ha.of_rows (by rw [hlp])
  | relax _ hb hr => exact ha.relax (hrelax hwalk hb) hr
  | enter _ hlp => exact ha.of_rows (congrArg Model.rows hlp)
  | skip _ hs | leave _ hs | ended hs => exact ha.of_rows (congrArg Model.rows hs.1)
  | idle | busy | pass => exact ha

end Engine

end LPRounding
