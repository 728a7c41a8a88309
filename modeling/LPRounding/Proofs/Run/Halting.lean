import LPRounding.Proofs.Run.Order
import LPRounding.Proofs.Run.Progress

/-!
Every run by restrained policies ends. Fixing and relaxing use up columns and rows, and an iteration
that uses up none is the last; what is there at the start and what is appended later therefore
bounds the iterations, and a run whose policies answer ends with an outcome or is stuck.
-/

namespace LPRounding

set_option linter.unusedSectionVars false

variable {P K : Type} [Scalar K]

namespace Model

/-- The columns and rows that an iteration may still use up. -/
def pending (m : Model K) : Nat := m.activeColumns.length + m.activeRows.length

theorem length_positions {α : Type} (test : α → Bool) (xs : List α) :
    (positions test xs).length = xs.countP test := by
  have hmap : (xs.zipIdx.map Prod.fst).countP test = xs.countP test := by
    rw [List.zipIdx_map_fst]
  rw [← hmap, List.countP_map, positions, List.length_map, List.countP_eq_length_filter]
  rfl

theorem pending_fix {m m' : Model K} {j : Nat} {v : K} (h : Returns (fixColumn j v) m () m') :
    m'.pending + 1 = m.pending := by
  have hfewer := length_activeColumns_fix h
  obtain ⟨c, -, -, rfl⟩ := returns_fixColumn.mp h
  have hrows : ∀ cs, ({ m with columns := cs } : Model K).activeRows = m.activeRows := fun _ => rfl
  simp only [pending, hrows] at hfewer ⊢
  omega

theorem pending_relax {m m' : Model K} {i : Nat} (h : Returns (relaxRow i) m () m') :
    m'.pending + 1 = m.pending := by
  have hfewer := length_activeRows_relax h
  obtain ⟨r, -, -, rfl⟩ := returns_relaxRow.mp h
  have hcolumns : ∀ rs, ({ m with rows := rs } : Model K).activeColumns = m.activeColumns :=
    fun _ => rfl
  simp only [pending, hcolumns] at hfewer ⊢
  omega

end Model

theorem Run.Appended.pending_le {s t : Run P K} (h : s.Appended t) :
    t.lp.pending + s.lp.rows.length ≤ s.lp.pending + t.lp.rows.length := by
  obtain ⟨⟨rows, solution, hlp⟩, -⟩ := h
  have hnew := List.countP_le_length (p := fun r : Row K => !r.relaxed) (l := rows)
  have hcolumns : t.lp.activeColumns = s.lp.activeColumns := by rw [hlp]; rfl
  rw [Model.pending, Model.pending, hcolumns, Model.activeRows, Model.activeRows,
    Model.length_positions, Model.length_positions, hlp, List.countP_append, List.length_append]
  omega

variable [Roundable P K]

namespace Engine

variable {p : Policies P K} {s t u : Run P K} {a b : Stage K × Run P K}

/-- Each iteration that has ended was paid for with a column or a row that was there at the start or
was appended; the one that is under way has paid what its passes have done. -/
def Paid (s : Run P K) : Stage K → Run P K → Prop
  | .rounding _ _ r, t => t.iterations + t.lp.pending + r + s.lp.rows.length ≤
      s.iterations + 1 + s.lp.pending + t.lp.rows.length
  | .relaxing _ _ l, t => t.iterations + t.lp.pending + l + s.lp.rows.length ≤
      s.iterations + 1 + s.lp.pending + t.lp.rows.length
  | .passed _ r l, t => t.iterations + t.lp.pending + r + l + s.lp.rows.length ≤
      s.iterations + 1 + s.lp.pending + t.lp.rows.length
  | _, t => t.iterations + t.lp.pending + s.lp.rows.length ≤
      s.iterations + s.lp.pending + t.lp.rows.length

theorem Move.paid (h : Move p a b) (ha : Paid s a.1 a.2) : Paid s b.1 b.2 := by
  cases h with
  | solve h =>
    simp only [Paid] at ha ⊢
    have := h.pending_le
    have := h.iterations
    omega
  | enter _ hlp hit =>
    simp only [Paid, hlp, hit] at ha ⊢
    omega
  | skip _ h =>
    simp only [Paid, h.1, h.2] at ha ⊢
    exact ha
  | fix _ hf hit =>
    have hfewer := Model.pending_fix hf
    obtain ⟨c, -, -, hlp⟩ := Model.returns_fixColumn.mp hf
    have hrows := congrArg (fun m => m.rows.length) hlp
    simp only [Paid] at ha hrows ⊢
    omega
  | idle => exact ha
  | busy => exact ha
  | leave _ h =>
    simp only [Paid, h.1, h.2] at ha ⊢
    exact ha
  | relax _ _ hr hit =>
    have hfewer := Model.pending_relax hr
    obtain ⟨r, -, -, hlp⟩ := Model.returns_relaxRow.mp hr
    have hrows := congrArg (fun m => m.rows.length) hlp
    simp only [Paid, List.length_set] at ha hrows ⊢
    omega
  | pass =>
    simp only [Paid] at ha ⊢
    omega
  | resolve hn h =>
    simp only [Paid] at ha ⊢
    have := h.pending_le
    have := h.iterations
    omega
  | ended h =>
    simp only [Paid, h.1, h.2] at ha ⊢
    exact ha

theorem Reached.paid (hp : p.Restrained) {stage : Stage K} (h : Reached p p.ask s stage t) :
    Paid s stage t :=
  h.induct le_rfl fun _ hstep => (hstep.move hp).paid

/-- The call that is due at a point returns, and an optimal point can be read. -/
def Answered (p : Policies P K) : Stage K → Run P K → Prop
  | .begun, s => ∃ st t, Returns p.solve s st t
  | .solved _ .optimal, s => s.lp.solution.isSome ∧ ∃ b t, Returns p.stop s b t ∧
      (b = true → ∃ u, Returns p.setSolution t () u)
  | .rounding _ (j :: _) _, s => ∃ v t, Returns (p.ask j) s v t
  | .relaxing _ (i :: _) l, s => p.limit l = false → ∃ b t, Returns (p.relax i) s b t
  | .passed n r l, s => ¬ (r = 0 ∧ l = 0) →
      ∃ st t, Returns p.resolve { s with trace := s.trace ++ [.iterated n r l] } st t
  | _, _ => True

theorem not_fails_report {st : Status} {e : Fault K} :
    ¬ Fails (report st : Action P K Unit) s e t := by
  simp [report]

theorem Halts.stuck_of_answered (hp : p.Restrained) {e : Fault K} (h : Halts p p.ask a e t)
    (hplaced : Placed a.1 a.2) (ha : Answered p a.1 a.2) :
    ∃ n u, a = (.passed n 0 0, u) ∧ t.lp = u.lp ∧
      e = .stuck n u.lp.name u.lp.activeColumns.length u.lp.activeRows.length := by
  cases h with
  | solve h =>
    obtain ⟨st, u, hu⟩ := ha
    rcases fails_bind.mp h with h | ⟨_, _, -, h⟩
    · exact (hu.not_fails h).elim
    rcases fails_bind.mp h with h | ⟨_, _, -, h⟩
    · exact (not_fails_report h).elim
    · simp at h
  | stop h =>
    obtain ⟨-, b, u, hu, -⟩ := ha
    exact (hu.not_fails h).elim
  | ask h =>
    obtain ⟨v, u, hu⟩ := ha
    exact (hu.not_fails h).elim
  | fix hv h =>
    obtain ⟨m, hm, -⟩ := Action.fails_onModel.mp h
    obtain ⟨c, hc, hf⟩ := Model.mem_activeColumns.mp (hplaced.2.2 _ List.mem_cons_self)
    rw [← (hp.ask hv).1] at hc
    exact (Returns.not_fails ((Model.returns_fixColumn (u := ())).mpr ⟨c, hc, hf, rfl⟩) hm).elim
  | relax hl h =>
    obtain ⟨b, u, hu⟩ := ha hl
    exact (hu.not_fails h).elim
  | drop _ hb h =>
    obtain ⟨m, hm, -⟩ := Action.fails_onModel.mp h
    obtain ⟨r, hr, hk⟩ := Model.mem_activeRows.mp (hplaced.2.2 _ List.mem_cons_self)
    rw [← (hp.relax hb).1] at hr
    exact (Returns.not_fails ((Model.returns_relaxRow (u := ())).mpr ⟨r, hr, hk, rfl⟩) hm).elim
  | stuck => exact ⟨_, _, rfl, rfl, rfl⟩
  | resolve hn h =>
    obtain ⟨st, u, hu⟩ := ha hn
    simp only [fails_bind, Action.fails_note, Action.returns_note, false_or] at h
    obtain ⟨_, _, rfl, h⟩ := h
    rcases fails_bind.mp h with h | ⟨_, _, -, h⟩
    · exact (hu.not_fails h).elim
    rcases fails_bind.mp h with h | ⟨_, _, -, h⟩
    · exact (not_fails_report h).elim
    · simp at h
  | finish hb h =>
    obtain ⟨hsome, b, u, hu, hset⟩ := ha
    obtain ⟨rfl, rfl⟩ := hb.unique hu
    obtain ⟨v, hv⟩ := hset rfl
    rcases fails_bind.mp h with h | ⟨_, w, hw, h⟩
    · exact (hv.not_fails h).elim
    obtain ⟨-, rfl⟩ := hv.unique hw
    -- the point of the last solve is still there to be read
    have hlp := ((hp.stop hb).trans (hp.setSolution hw)).1
    obtain ⟨x, hx⟩ : ∃ x, v.lp.solution = some x := by
      rw [hlp]
      exact Option.isSome_iff_exists.mp hsome
    have hobjective : v.lp.objective = .ok x.objective := by
      simp [Model.objective, Model.lastSolution, hx, pure, bind, Except.bind, Except.pure]
    simp [hobjective] at h

inductive Declines (rule : Nat → Action P K (Option K)) :
    List Nat → Run P K → Run P K → Prop where
  | nil (s : Run P K) : Declines rule [] s s
  | cons {j : Nat} {rest : List Nat} {s t u : Run P K} : Returns (rule j) s none t →
      Declines rule rest t u → Declines rule (j :: rest) s u

theorem returns_roundColumns_le {rule : Nat → Action P K (Option K)} {columns : List Nat}
    {r k : Nat} (h : Returns (roundColumns rule columns r) s k t) : r ≤ k := by
  induction columns generalizing s r with
  | nil => exact (returns_pure.mp h).1.le
  | cons j rest ih =>
    obtain ⟨v, u, hv, h⟩ := returns_bind.mp h
    cases v with
    | none => exact ih h
    | some v =>
      simp only [returns_bind] at h
      obtain ⟨_, _, -, _, _, -, h⟩ := h
      exact (Nat.le_succ r).trans (ih h)

theorem declines_iff {rule : Nat → Action P K (Option K)} {columns : List Nat} {r : Nat} :
    Declines rule columns s t ↔ Returns (roundColumns rule columns r) s r t := by
  induction columns generalizing s with
  | nil =>
    constructor
    · rintro ⟨⟩
      exact returns_pure.mpr ⟨rfl, rfl⟩
    · intro h
      obtain ⟨-, rfl⟩ := returns_pure.mp h
      exact .nil s
  | cons j rest ih =>
    constructor
    · rintro (_ | ⟨hv, h⟩)
      exact returns_bind.mpr ⟨none, _, hv, ih.mp h⟩
    · intro h
      obtain ⟨v, u, hv, h⟩ := returns_bind.mp h
      cases v with
      | none => exact .cons hv (ih.mpr h)
      | some v =>
        simp only [returns_bind] at h
        obtain ⟨_, _, -, _, _, -, h⟩ := h
        exact absurd (returns_roundColumns_le h) (Nat.not_succ_le_self r)

def Opened (p : Policies P K) (s : Run P K) (n : Nat) (w : Run P K) : Prop :=
  ∃ first u v, Reached p p.ask s (.solved first .optimal) u ∧ Returns p.stop u false v ∧
    Returns beginIteration v n w

/-- What is left of a pass comes to what the whole pass comes to. -/
def Traced (p : Policies P K) (s : Run P K) : Stage K → Run P K → Prop
  | .rounding n columns r, t => ∃ w, Opened p s n w ∧
      roundColumns p.ask columns r t = roundColumns p.ask w.lp.activeColumns 0 w
  | .relaxing n rows l, t => ∃ w x, Opened p s n w ∧
      Returns (roundColumns p.ask w.lp.activeColumns 0) w 0 x ∧
      relaxRows p rows l t = relaxRows p x.lp.activeRows 0 x
  | .passed n r l, t => ∃ w x, Opened p s n w ∧
      Returns (roundColumns p.ask w.lp.activeColumns 0) w r x ∧
      (r = 0 → Returns (relaxRows p x.lp.activeRows 0) x l t)
  | _, _ => True

theorem Step.traced (h : Step p p.ask a b) (hw : Walk p p.ask (.begun, s) a)
    (ha : Traced p s a.1 a.2) : Traced p s b.1 b.2 := by
  cases h with
  | solve => trivial
  | enter hb hn => exact ⟨_, ⟨_, _, _, hw, hb, hn⟩, rfl⟩
  | skip hv =>
    obtain ⟨w, ho, heq⟩ := ha
    exact ⟨w, ho, (hv.bind_apply _).symm.trans heq⟩
  | fix hv h =>
    obtain ⟨w, ho, heq⟩ := ha
    refine ⟨w, ho, Eq.trans ?_ heq⟩
    obtain ⟨_, x, hx, h⟩ := returns_bind.mp h
    exact ((hv.bind_apply _).trans ((hx.bind_apply _).trans (h.bind_apply _))).symm
  | idle =>
    obtain ⟨w, ho, heq⟩ := ha
    exact ⟨w, _, ho, heq.symm, rfl⟩
  | busy hr =>
    obtain ⟨w, ho, heq⟩ := ha
    exact ⟨w, _, ho, heq.symm, fun h => absurd h hr⟩
  | @leave s t n i l rest hl hb =>
    obtain ⟨w, x, ho, hx, heq⟩ := ha
    have hsame : relaxRows p (i :: rest) l s = relaxRows p rest l t := by
      rw [relaxRows, if_neg (by simp [hl]), hb.bind_apply]
      rfl
    exact ⟨w, x, ho, hx, hsame.symm.trans heq⟩
  | @relax s t u n i l rest hl hb h =>
    obtain ⟨w, x, ho, hx, heq⟩ := ha
    have hsame : relaxRows p (i :: rest) l s = relaxRows p rest (l + 1) t := by
      obtain ⟨_, y, hy, h⟩ := returns_bind.mp h
      rw [relaxRows, if_neg (by simp [hl]), hb.bind_apply, if_pos rfl, hy.bind_apply,
        h.bind_apply]
    exact ⟨w, x, ho, hx, hsame.symm.trans heq⟩
  | limit hl =>
    obtain ⟨w, x, ho, hx, heq⟩ := ha
    rw [relaxRows, if_pos hl] at heq
    exact ⟨w, x, ho, hx, fun _ => heq.symm⟩
  | out =>
    obtain ⟨w, x, ho, hx, heq⟩ := ha
    exact ⟨w, x, ho, hx, fun _ => heq.symm⟩
  | resolve => trivial
  | finish => trivial
  | lose => trivial

theorem Reached.traced {stage : Stage K} (h : Reached p p.ask s stage t) : Traced p s stage t :=
  h.induct trivial fun hwalk hstep => hstep.traced hwalk

/-- The stop policy has refused to end the run, the rounding rule declines every active column, and
the relax pass relaxes no row. -/
def Idles (p : Policies P K) (s : Run P K) (n : Nat) (t : Run P K) : Prop :=
  ∃ w x, Opened p s n w ∧ Declines p.ask w.lp.activeColumns w x ∧ Returns (relax p) x 0 t

theorem idles_iff {n : Nat} : Idles p s n t ↔ Reached p p.ask s (.passed n 0 0) t := by
  constructor
  · rintro ⟨w, x, ⟨first, u, v, hu, hv, hw⟩, hx, hy⟩
    simp only [relax, returns_bind, Action.returns_model] at hy
    obtain ⟨_, _, ⟨rfl, rfl⟩, hy⟩ := hy
    refine (hu.tail (.enter hv hw)).trans ((walk_roundColumns (declines_iff.mp hx)).trans ?_)
    exact .head .idle (walk_relaxRows hy)
  · intro h
    obtain ⟨w, x, ho, hx, hy⟩ := Reached.traced h
    refine ⟨w, x, ho, declines_iff.mpr hx, ?_⟩
    exact returns_bind.mpr ⟨_, x, Action.returns_model.mpr ⟨rfl, rfl⟩, hy rfl⟩

theorem Opened.exists_eq (hp : p.Restrained) {n : Nat} {w : Run P K} (h : Opened p s n w) :
    ∃ k, n = s.iterations + k + 1 := by
  obtain ⟨first, u, v, hu, hv, hw⟩ := h
  have hle : s.iterations ≤ u.iterations := Walk.iterations_le hp hu
  have hstop := (hp.stop hv).2
  simp only [beginIteration, returns_bind, returns_modify, returns_get, returns_pure] at hw
  obtain ⟨_, _, rfl, _, _, ⟨rfl, rfl⟩, rfl, rfl⟩ := hw
  refine ⟨v.iterations - s.iterations, ?_⟩
  show v.iterations + 1 = _
  omega

theorem status_of_reached {rule : Nat → Action P K (Option K)} {out : Outcome K}
    (h : Reached p rule s (.ended out) t) : out.status = .optimal ∨ out.status = .infeasible := by
  rcases Relation.ReflTransGen.cases_tail h with heq | ⟨c, -, hstep⟩
  · cases heq
  cases hstep with
  | finish _ h =>
    simp only [Engine.finish, returns_bind, returns_pure] at h
    obtain ⟨_, _, -, _, _, -, _, _, -, _, _, -, _, _, -, rfl, -⟩ := h
    exact .inl rfl
  | lose _ h =>
    simp only [returns_bind] at h
    obtain ⟨_, _, -, h⟩ := h
    exact .inr (returns_giveUp h)

/-- How a run from `s` ends that iterates `bound` times at most. -/
structure Ending [Backend K] (p : Policies P K) (s : Run P K) (bound : Nat) : Prop where
  /-- The run has an outcome, or after `k` iterations it is stuck in the next. -/
  ends : (∃ out t, Returns (run p) s out t ∧
      (out.status = .optimal ∨ out.status = .infeasible) ∧ t.iterations ≤ s.iterations + bound) ∨
    ∃ k t, Fails (run p) s (.stuck (s.iterations + k + 1) t.lp.name t.lp.activeColumns.length
      t.lp.activeRows.length) t ∧ k + t.lp.pending ≤ bound
  /-- It is stuck just where it comes to an iteration that does nothing. -/
  stuck : (∃ n name columns rows t, Fails (run p) s (.stuck n name columns rows) t) ↔
    ∃ n t, Idles p s n t

variable [Backend K]

theorem falls_stuck (hp : p.Restrained)
    (ha : ∀ stage t, Reached p p.ask s stage t → Answered p stage t) {e : Fault K}
    (h : Fails (run p) s e t) :
    (∃ n u, Idles p s n u ∧ t.lp = u.lp ∧
      e = .stuck n u.lp.name u.lp.activeColumns.length u.lp.activeRows.length) ∨
    e = .unfinished ∧ s.iterations + Backend.passes K ≤ t.iterations ∧
      ∃ first, Reached p p.ask s (.solved first .optimal) t := by
  refine (falls_of_run hp h).imp ?_ id
  rintro ⟨⟨stage, u⟩, hb, hh⟩
  obtain ⟨n, u, heq, hlp, rfl⟩ := hh.stuck_of_answered hp (Reached.placed hp hb) (ha _ _ hb)
  obtain ⟨rfl, rfl⟩ := Prod.mk.inj heq
  exact ⟨n, _, idles_iff.mpr hb, hlp, rfl⟩

theorem Step.length_rows (hp : p.Restrained) (hsolve : p.solve = Action.solveModel)
    (hresolve : p.resolve = Action.solveModel) (h : Step p p.ask a b) :
    b.2.lp.rows.length = a.2.lp.rows.length := by
  cases h.move hp with
  | solve | resolve =>
    obtain ⟨solution, hlp, -⟩ := Model.returns_solve (h.solves hsolve hresolve)
    rw [hlp]
  | enter _ hlp => rw [hlp]
  | skip _ hstill => rw [hstill.1]
  | fix _ hf =>
    obtain ⟨c, -, -, hlp⟩ := Model.returns_fixColumn.mp hf
    rw [hlp]
  | idle => rfl
  | busy => rfl
  | leave _ hstill => rw [hstill.1]
  | relax _ _ hr =>
    obtain ⟨r, -, -, hlp⟩ := Model.returns_relaxRow.mp hr
    rw [hlp]
    exact List.length_set
  | pass => rfl
  | ended hstill => rw [hstill.1]

theorem Reached.length_rows (hp : p.Restrained) (hsolve : p.solve = Action.solveModel)
    (hresolve : p.resolve = Action.solveModel) {stage : Stage K} (h : Reached p p.ask s stage t) :
    t.lp.rows.length = s.lp.rows.length :=
  h.induct rfl fun _ hstep => (hstep.length_rows hp hsolve hresolve).trans

/-- Fixing and relaxing end every run whose policies return: with at most `r` rows added, it
has an outcome or is stuck before the columns and rows are used up, and plain solves add none. -/
theorem run_ends_within (hp : p.Restrained) {r : Nat}
    (ha : ∀ stage t, Reached p p.ask s stage t → Answered p stage t)
    (hrows : ∀ stage t, Reached p p.ask s stage t →
      t.lp.rows.length ≤ s.lp.rows.length + r)
    (hpasses : s.lp.pending + r < Backend.passes K) :
    Ending p s (s.lp.pending + r) ∧
      (p.solve = Action.solveModel → p.resolve = Action.solveModel →
        ∀ stage t, Reached p p.ask s stage t → t.lp.rows.length = s.lp.rows.length) := by
  have hends : (∃ out t, Returns (run p) s out t ∧
      (out.status = .optimal ∨ out.status = .infeasible) ∧
        t.iterations ≤ s.iterations + (s.lp.pending + r)) ∨
      ∃ k t, Fails (run p) s (.stuck (s.iterations + k + 1) t.lp.name t.lp.activeColumns.length
        t.lp.activeRows.length) t ∧ k + t.lp.pending ≤ s.lp.pending + r := by
    rcases returns_or_fails (run p) s with ⟨out, t, h⟩ | ⟨e, t, h⟩
    · have hreached := reached_of_returns h
      have hpaid := Reached.paid hp hreached
      have hadded := hrows _ _ hreached
      simp only [Paid] at hpaid
      exact .inl ⟨out, t, h, status_of_reached hreached, by omega⟩
    rcases falls_stuck hp ha h with ⟨n, u, hidle, hlp, rfl⟩ | ⟨-, hcount, first, hreached⟩
    · have hreached := idles_iff.mp hidle
      obtain ⟨w, x, hopen, -⟩ := hidle
      obtain ⟨k, rfl⟩ := hopen.exists_eq hp
      have hpaid := Reached.paid hp hreached
      have hadded := hrows _ _ hreached
      have hplaced := Reached.placed hp hreached
      simp only [Paid, Placed] at hpaid hplaced
      refine .inr ⟨k, t, by rw [hlp]; exact h, ?_⟩
      rw [hlp]
      omega
    · -- the allowance is too large to be used up
      have hpaid := Reached.paid hp hreached
      have hadded := hrows _ _ hreached
      simp only [Paid] at hpaid
      omega
  refine ⟨⟨hends, ?_, ?_⟩, fun hsolve hresolve _ _ => Reached.length_rows hp hsolve hresolve⟩
  · rintro ⟨n, name, columns, rows, t, h⟩
    rcases falls_stuck hp ha h with ⟨n, u, hidle, -⟩ | ⟨he, -⟩
    · exact ⟨n, u, hidle⟩
    · cases he
  · rintro ⟨n, y, hidle⟩
    rcases hends with ⟨out, t, h, -⟩ | ⟨k, t, h, -⟩
    · -- a walk that has come to an idle iteration cannot come to an end
      rcases Walk.comparable (reached_of_returns h) (idles_iff.mp hidle) with hw | hw
      · cases walk_of_ended hw
      · cases hw.eq_of_still fun _ => not_step_of_vain
    · exact ⟨_, _, _, _, t, h⟩

end Engine

section Plain

variable {P K : Type} [Field K] [LinearOrder K] [IsStrictOrderedRing K] [FloorRing K]
  [Roundable P K] [Backend K]

/-- The solver comes to an answer, whatever the system. -/
def Solver.Answering (solver : Solver K) : Prop :=
  ∀ s, (∃ x c, solver s = .optimal x c) ∨ solver s = .infeasible ∨ solver s = .unbounded

theorem Solver.Answering.returns {solver : Solver K} (h : solver.Answering)
    (hb : (Backend.solver : Solver K) = solver) {s : Run P K} (hl : s.lp.loaded = true) :
    ∃ st t, Returns Action.solveModel s st t := by
  have hnever : ∀ e, s.lp.Refused Backend.solver e → False := by
    rintro e (⟨part, hpart, -⟩ | ⟨hpart, -⟩) <;> rw [hb] at hpart
    · rcases h s.lp.system with ⟨x, c, hs⟩ | hs | hs <;> cases hs.symm.trans hpart
    · rcases h s.lp.system with ⟨x, c, hs⟩ | hs | hs <;> cases hs.symm.trans hpart
  have hends : Ends Action.solveModel s
      (fun _ t => t.lp.toGo (fun _ => true) = _ ∧ t.iterations = _) fun _ => False :=
    (Action.solveModel_ends hl).mono (fun _ _ _ => id) hnever
  obtain ⟨st, t, ht, -⟩ := hends.exists_returns
  exact ⟨st, t, ht⟩

namespace Engine

variable {p : Policies P K} {s t : Run P K}

/-- The model is loaded, and where its point is read it has a value for each column. -/
def Ready (stage : Stage K) (s : Run P K) : Prop :=
  s.lp.loaded = true ∧
    match stage with
    | .solved _ st => st = .optimal → s.lp.Valued
    | .rounding _ _ _ => s.lp.Valued
    | .relaxing _ _ _ => s.lp.Valued
    | _ => True

structure Plain (p : Policies P K) : Prop where
  restrained : p.Restrained
  sound : (Backend.solver : Solver K).Sound
  answering : (Backend.solver : Solver K).Answering
  solve : p.solve = Action.solveModel
  resolve : p.resolve = Action.solveModel
  ask : ∀ {s j}, s.lp.Valued → j ∈ s.lp.activeColumns → ∃ v t, Returns (p.ask j) s v t
  relax : ∀ {s i}, s.lp.Valued → i ∈ s.lp.activeRows → ∃ b t, Returns (p.relax i) s b t
  stop : ∀ s, ∃ b t, Returns p.stop s b t
  setSolution : ∀ {s}, s.lp.Valued → ∃ t, Returns p.setSolution s () t

theorem Ready.step (hp : p.Restrained) {a b : Stage K × Run P K} (h : Step p p.ask a b)
    (hsolve : ∀ first, b.1 = .solved first .optimal → b.2.lp.Valued) (ha : Ready a.1 a.2) :
    Ready b.1 b.2 := by
  obtain ⟨hl, hv⟩ := ha
  cases h.move hp with
  | solve happ | resolve _ happ =>
    obtain ⟨⟨rows, solution, hlp⟩, -⟩ := happ
    refine ⟨by rw [hlp]; exact hl, ?_⟩
    rintro rfl
    exact hsolve _ rfl
  | enter _ hlp => exact ⟨by rw [hlp]; exact hl, by rw [hlp]; exact hv rfl⟩
  | skip _ hs => exact ⟨by rw [hs.1]; exact hl, by rw [hs.1]; exact hv⟩
  | fix _ hf =>
    have hvalued := Model.Valued.fix hv hf
    obtain ⟨c, -, -, hlp⟩ := Model.returns_fixColumn.mp hf
    exact ⟨by rw [hlp]; exact hl, hvalued⟩
  | idle => exact ⟨hl, hv⟩
  | busy => exact ⟨hl, trivial⟩
  | leave _ hs => exact ⟨by rw [hs.1]; exact hl, by rw [hs.1]; exact hv⟩
  | relax _ _ hr =>
    have hvalued := Model.Valued.relax hv hr
    obtain ⟨r, -, -, hlp⟩ := Model.returns_relaxRow.mp hr
    exact ⟨by rw [hlp]; exact hl, hvalued⟩
  | pass => exact ⟨hl, trivial⟩
  | ended hs => exact ⟨by rw [hs.1]; exact hl, trivial⟩

theorem Reached.ready (hp : p.Restrained)
    (hsolve : ∀ first t, Reached p p.ask s (.solved first .optimal) t → t.lp.Valued)
    (hl : s.lp.loaded = true) {stage : Stage K} (h : Reached p p.ask s stage t) : Ready stage t :=
  h.induct ⟨hl, trivial⟩ fun {_ b} hwalk hstep => Ready.step hp hstep fun first hb => by
    obtain ⟨stage, u⟩ := b
    obtain rfl : stage = .solved first .optimal := hb
    exact hsolve first u (hwalk.tail hstep)

theorem Plain.ready (k : Plain p) (hl : s.lp.loaded = true) {stage : Stage K}
    (h : Reached p p.ask s stage t) : Ready stage t := by
  refine Reached.ready k.restrained (fun first u hu => ?_) hl h
  rcases Relation.ReflTransGen.cases_tail hu with heq | ⟨a, -, hstep⟩
  · cases heq
  · exact (Model.solved_of_solve k.sound (hstep.solves k.solve k.resolve)).valued

theorem Plain.answered (k : Plain p) (hl : s.lp.loaded = true) {stage : Stage K}
    (h : Reached p p.ask s stage t) : Answered p stage t := by
  have hplaced := Reached.placed k.restrained h
  obtain ⟨hload, hv⟩ := k.ready hl h
  cases stage with
  | begun =>
    show ∃ st u, Returns p.solve t st u
    rw [k.solve]
    exact k.answering.returns rfl hload
  | solved first st =>
    cases st with
    | optimal =>
      obtain ⟨b, u, hu⟩ := k.stop t
      have hvalued := hv rfl
      refine ⟨?_, b, u, hu, fun _ => k.setSolution ?_⟩
      · obtain ⟨x, hx, -⟩ := hvalued
        exact hx ▸ rfl
      · rw [(k.restrained.stop hu).1]
        exact hvalued
    | infeasible => trivial
    | unbounded => trivial
  | rounding n columns r =>
    cases columns with
    | nil => trivial
    | cons j rest => exact k.ask hv (hplaced.2.2 j List.mem_cons_self)
  | relaxing n rows l =>
    cases rows with
    | nil => trivial
    | cons i rest => exact fun _ => k.relax hv (hplaced.2.2 i List.mem_cons_self)
  | passed n r l =>
    intro _
    show ∃ st u, Returns p.resolve _ st u
    rw [k.resolve]
    exact k.answering.returns rfl hload
  | ended out => trivial

end Engine

end Plain

theorem Solver.trying_answering {K : Type} [Field K] [LinearOrder K] [IsStrictOrderedRing K]
    [FloorRing K] (points : List (List K)) : (Solver.trying points).Answering := by
  intro s
  unfold Solver.trying
  split
  · exact .inl ⟨_, _, rfl⟩
  · exact .inr (.inl rfl)

namespace Explicit

theorem plain {K : Type} [Field K] [LinearOrder K] [IsStrictOrderedRing K] [FloorRing K]
    [Backend K] (hsound : (Backend.solver : Solver K).Sound)
    (hanswering : (Backend.solver : Solver K).Answering) {c : Choices K}
    {p : Policies (Explicit K) K} (hround : c.round = none) (hsolve : c.solve = none)
    (hresolve : c.resolve = none) (h : policies.replace c = .ok p) : Engine.Plain p := by
  have hrestrained := restrained h
  obtain ⟨limit, rfl⟩ := Policies.exists_of_replace h
  refine ⟨hrestrained, hsound, hanswering, by simp [hsolve, policies, SolveRule.apply],
    by simp [hresolve, policies, SolveRule.apply], ?_, ?_, ?_, fun {s} _ => ⟨s, rfl⟩⟩
  · intro s j hv hj
    obtain ⟨x, hx, hlen⟩ := hv
    have hj := (Model.mem_activeColumns_iff.mp hj).1
    have hends : Ends (RoundRule.zeroThenOne.apply j) s (fun _ _ => True) fun _ => False :=
      RoundRule.zeroThenOne_ends (Model.columnValue_eq hx hlen hj) fun _ => trivial
    obtain ⟨v, t, ht, -⟩ := hends.exists_returns
    exact ⟨v, t, by simpa [Policies.ask, hround, policies] using ht⟩
  · intro s i _ hi
    obtain ⟨r, hr, -⟩ := Model.mem_activeRows.mp hi
    show ∃ b t, Returns (c.relax.elim policies.relax RelaxRule.apply i) s b t
    cases c.relax with
    | none => exact ⟨false, s, rfl⟩
    | some rule =>
      cases rule with
      | never | always | rows => exact ⟨_, s, rfl⟩
      | degreeAtMost k =>
        have hdegree := Model.rowDegree_eq_ok.mpr ⟨r, hr, rfl⟩
        refine ⟨decide (((r.coefs.filter s.lp.counts).length : Int) ≤ k), s,
          returns_bind.mpr ⟨_, s, Action.returns_model.mpr ⟨rfl, rfl⟩, ?_⟩⟩
        exact returns_bind.mpr ⟨_, s, returns_lift.mpr ⟨hdegree, rfl⟩, rfl⟩
  · intro s
    show ∃ b t, Returns (c.stop.elim policies.stop StopRule.apply) s b t
    cases c.stop with
    | none => exact ⟨_, s, rfl⟩
    | some rule => cases rule <;> exact ⟨_, s, rfl⟩

end Explicit

/-- A run that is never to stop uses up its column and its row and is then stuck. -/
theorem half_stuck :
    let _ := Explicit.halfBackend
    ∃ (pol : Policies (Explicit ℚ) ℚ) (k : Nat) (t : Run (Explicit ℚ) ℚ),
      Explicit.policies.replace
        { relax := some .always, limit := some (some 1), stop := some (.activeAtMost (-1)) } =
          .ok pol ∧
      Fails (Engine.run pol) { problem := Explicit.half, lp := Explicit.halfModel }
        (.stuck (k + 1) t.lp.name t.lp.activeColumns.length t.lp.activeRows.length) t ∧
      k + t.lp.pending ≤ Explicit.halfModel.pending ∧
      ∃ n u, Engine.Idles pol { problem := Explicit.half, lp := Explicit.halfModel } n u := by
  let _ := Explicit.halfBackend
  obtain ⟨pol, hpol, hrun⟩ := exists_ok
    ((Explicit.policies : Policies (Explicit ℚ) ℚ).replace
      { relax := some .always, limit := some (some 1), stop := some (.activeAtMost (-1)) })
    (fun pol => faults (Engine.run pol) { problem := Explicit.half, lp := Explicit.halfModel }
      fun _ => true) (by decide +kernel)
  obtain ⟨e, u, hfails, -⟩ := exists_fails hrun
  have hplain := Explicit.plain (Solver.trying_sound _) (Solver.trying_answering _) rfl rfl rfl hpol
  obtain ⟨⟨hends, hstuck⟩, -⟩ := Engine.run_ends_within (p := pol) (r := 0)
    (s := { problem := Explicit.half, lp := Explicit.halfModel }) hplain.restrained
    (fun _ _ => hplain.answered rfl)
    (fun _ _ h => (Engine.Reached.length_rows hplain.restrained hplain.solve hplain.resolve h).le)
    (by decide)
  rcases hends with ⟨out, t, h, -⟩ | ⟨k, t, h, hle⟩
  · exact (h.not_fails hfails).elim
  · refine ⟨pol, k, t, hpol, ?_, hle, hstuck.mp ⟨_, _, _, _, t, h⟩⟩
    simpa using h

end LPRounding
