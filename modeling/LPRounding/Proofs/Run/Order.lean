import LPRounding.Proofs.Run.Course
import LPRounding.Proofs.LP.Trying
import LPRounding.Problem.Explicit

/-!
The order of a run. Whatever restrained policies decide, columns are asked about in order while they
are active, constants and relaxations are for good, rows go only where no column could be fixed, and
each iteration is followed by one resolve.
-/

namespace LPRounding

set_option linter.unusedSectionVars false

variable {P K : Type} [Scalar K]

/-- Constants stay and rows that are gone stay away; nothing else about old columns and rows
changes. -/
structure Model.Later (m m' : Model K) : Prop extends Grown m m' where
  direction : m'.direction = m.direction
  constant : ∀ {j v}, m.fixedAt j = some v → m'.fixedAt j = some v
  gone : ∀ {i}, i < m.rows.length → i ∉ m.activeRows → i ∉ m'.activeRows

namespace Model.Later

variable {m m' m'' : Model K}

theorem refl (m : Model K) : m.Later m := ⟨.refl m, rfl, id, fun _ => id⟩

theorem length_rows (h : m.Later m') : m.rows.length ≤ m'.rows.length := by
  by_contra hlt
  obtain ⟨r, hr, -⟩ := h.rows _ _ (List.getElem?_eq_getElem (not_le.mp hlt))
  exact lt_irrefl _ (List.getElem?_eq_some_iff.mp hr).1

theorem trans (h : m.Later m') (h' : m'.Later m'') : m.Later m'' := by
  refine ⟨⟨h'.columns.trans h.columns, fun i r hr => ?_⟩, h'.direction.trans h.direction,
    fun hj => h'.constant (h.constant hj), fun hi hn => ?_⟩
  · obtain ⟨r', hr', hb, hc⟩ := h.rows i r hr
    obtain ⟨r'', hr'', hb', hc'⟩ := h'.rows i r' hr'
    exact ⟨r'', hr'', hb'.trans hb, hc'.trans hc⟩
  · exact h'.gone (hi.trans_le h.length_rows) (h.gone hi hn)

theorem of_eq (h : m' = m) : m.Later m' := h ▸ refl m

theorem of_fix {j : Nat} {v : K} (h : Returns (fixColumn j v) m () m') : m.Later m' := by
  obtain ⟨c, hc, hf, rfl⟩ := returns_fixColumn.mp h
  refine ⟨(Grown.refl m).fix hc, rfl, fun {i w} hi => ?_, fun _ => id⟩
  rw [fixedAt_set hc]
  by_cases hij : i = j
  · subst hij
    simp [fixedAt, hc, hf] at hi
  · rwa [if_neg hij]

theorem of_relax {i : Nat} (h : Returns (relaxRow i) m () m') : m.Later m' := by
  have hgone {k : Nat} (hk : k ∉ m.activeRows) : k ∉ m'.activeRows :=
    fun hk' => hk ((mem_activeRows_relax h).mp hk').1
  obtain ⟨r, hr, -, rfl⟩ := returns_relaxRow.mp h
  exact ⟨(Grown.refl m).relax hr, rfl, id, fun _ => hgone⟩

theorem of_appended {s t : Run P K} (h : s.Appended t) : s.lp.Later t.lp := by
  obtain ⟨⟨rows, solution, hlp⟩, -⟩ := h
  rw [hlp]
  refine ⟨⟨rfl, fun i r hr => ⟨r, ?_, rfl, rfl⟩⟩, rfl, id, fun {i} hi hn ha => hn ?_⟩
  · exact (List.getElem?_append_left (List.getElem?_eq_some_iff.mp hr).1).trans hr
  · obtain ⟨r, hr, hk⟩ := mem_activeRows.mp ha
    exact mem_activeRows.mpr ⟨r, by rwa [List.getElem?_append_left hi] at hr, hk⟩

end Model.Later

variable [Roundable P K]

namespace Engine

variable {p : Policies P K} {s t u : Run P K} {a b : Stage K × Run P K}

theorem Move.later (h : Move p a b) : a.2.lp.Later b.2.lp := by
  cases h with
  | solve h => exact .of_appended h
  | enter _ hlp => exact .of_eq hlp
  | skip _ h => exact .of_eq h.1
  | fix _ hf => exact .of_fix hf
  | idle => exact .refl _
  | busy => exact .refl _
  | leave _ h => exact .of_eq h.1
  | relax _ _ hr => exact .of_relax hr
  | pass => exact .refl _
  | resolve _ h => exact .of_appended h
  | ended h => exact .of_eq h.1

theorem Walk.later (hp : p.Restrained) (h : Walk p p.ask a b) : a.2.lp.Later b.2.lp := by
  induction h with
  | refl => exact .refl _
  | tail _ hstep ih => exact ih.trans (hstep.move hp).later

theorem Move.columns (h : Move p a b) : b.2.lp.columns = a.2.lp.columns ∨
    ∃ n j rest r u v, a.1 = .rounding n (j :: rest) r ∧ Returns (p.ask j) a.2 (some v) u ∧
      Returns (Model.fixColumn j v) a.2.lp () b.2.lp := by
  cases h with
  | solve h | resolve _ h =>
    obtain ⟨⟨rows, solution, hlp⟩, -⟩ := h
    exact .inl (by rw [hlp])
  | enter _ hlp => exact .inl (congrArg Model.columns hlp)
  | skip _ h | leave _ h | ended h => exact .inl (congrArg Model.columns h.1)
  | fix hv hf => exact .inr ⟨_, _, _, _, _, _, rfl, hv, hf⟩
  | idle | busy | pass => exact .inl rfl
  | relax _ _ hr =>
    obtain ⟨r, -, -, hlp⟩ := Model.returns_relaxRow.mp hr
    exact .inl (by rw [hlp])

/-- In a pass the iteration is the current one, and what is left to ask about is active. -/
def Placed : Stage K → Run P K → Prop
  | .rounding n columns _, s => n = s.iterations ∧ columns.Pairwise (· < ·) ∧
      ∀ j ∈ columns, j ∈ s.lp.activeColumns
  | .relaxing n rows _, s => n = s.iterations ∧ rows.Pairwise (· < ·) ∧
      ∀ i ∈ rows, i ∈ s.lp.activeRows
  | .passed n _ _, s => n = s.iterations
  | _, _ => True

theorem Move.placed (h : Move p a b) (ha : Placed a.1 a.2) : Placed b.1 b.2 := by
  cases h with
  | solve => trivial
  | enter => exact ⟨rfl, Model.ascending_positions _ _, fun _ => id⟩
  | skip _ h =>
    obtain ⟨hn, hasc, hact⟩ := ha
    exact ⟨hn.trans h.2.symm, (List.pairwise_cons.mp hasc).2,
      fun i hi => h.1 ▸ hact i (List.mem_cons_of_mem _ hi)⟩
  | fix _ hf hit =>
    obtain ⟨hn, hasc, hact⟩ := ha
    obtain ⟨hlt, hasc⟩ := List.pairwise_cons.mp hasc
    refine ⟨hn.trans hit.symm, hasc, fun i hi => (Model.mem_activeColumns_fix hf).mpr ?_⟩
    exact ⟨hact i (List.mem_cons_of_mem _ hi), (hlt i hi).ne'⟩
  | idle => exact ⟨ha.1, Model.ascending_positions _ _, fun _ => id⟩
  | busy => exact ha.1
  | leave _ h =>
    obtain ⟨hn, hasc, hact⟩ := ha
    exact ⟨hn.trans h.2.symm, (List.pairwise_cons.mp hasc).2,
      fun i hi => h.1 ▸ hact i (List.mem_cons_of_mem _ hi)⟩
  | relax _ _ hr hit =>
    obtain ⟨hn, hasc, hact⟩ := ha
    obtain ⟨hlt, hasc⟩ := List.pairwise_cons.mp hasc
    refine ⟨hn.trans hit.symm, hasc, fun i hi => (Model.mem_activeRows_relax hr).mpr ?_⟩
    exact ⟨hact i (List.mem_cons_of_mem _ hi), (hlt i hi).ne'⟩
  | pass => exact ha.1
  | resolve => trivial
  | ended => trivial

theorem Walk.placed (hp : p.Restrained) (h : Walk p p.ask a b) (ha : Placed a.1 a.2) :
    Placed b.1 b.2 := by
  induction h with
  | refl => exact ha
  | tail _ hstep ih => exact (hstep.move hp).placed ih

theorem Reached.placed (hp : p.Restrained) {stage : Stage K} (h : Reached p p.ask s stage t) :
    Placed stage t :=
  Walk.placed hp h trivial

/-- Column `j` was asked about in iteration `n`: what is asked from then on comes after it. -/
def Past (n j : Nat) : Stage K → Run P K → Prop
  | .begun, _ => False
  | .rounding n' columns _, _ => n < n' ∨ n = n' ∧ ∀ i ∈ columns, j < i
  | _, s => n ≤ s.iterations

theorem Move.past {n j : Nat} (h : Move p a b) (hplaced : Placed a.1 a.2) (ha : Past n j a.1 a.2) :
    Past n j b.1 b.2 := by
  cases h with
  | solve => exact ha.elim
  | enter _ _ hit => exact .inl (hit.symm ▸ Nat.lt_succ_of_le ha)
  | skip =>
    exact ha.imp id fun ha => ⟨ha.1, fun i hi => ha.2 i (List.mem_cons_of_mem _ hi)⟩
  | fix =>
    exact ha.imp id fun ha => ⟨ha.1, fun i hi => ha.2 i (List.mem_cons_of_mem _ hi)⟩
  | idle => exact (ha.elim le_of_lt fun ha => ha.1.le).trans hplaced.1.le
  | busy => exact (ha.elim le_of_lt fun ha => ha.1.le).trans hplaced.1.le
  | leave _ h => exact ha.trans h.2.ge
  | relax _ _ _ hit => exact ha.trans hit.ge
  | pass => exact ha
  | resolve _ h => exact ha.trans h.iterations.ge
  | ended h => exact ha.trans h.2.ge

theorem Walk.past (hp : p.Restrained) {n j : Nat} (h : Walk p p.ask a b) (hplaced : Placed a.1 a.2)
    (ha : Past n j a.1 a.2) : Past n j b.1 b.2 := by
  induction h with
  | refl => exact ha
  | tail hwalk hstep ih => exact (hstep.move hp).past (Walk.placed hp hwalk hplaced) ih

/-- How much the passes of iteration `n` have fixed and relaxed since it stood at `u`, with `r₀`
columns fixed. -/
def Since (n r₀ : Nat) (u : Run P K) : Stage K → Run P K → Prop
  | .begun, _ => False
  | .rounding n' _ r, s => n ≤ n' ∧ (n = n' → r₀ ≤ r ∧
      s.lp.activeColumns.length + r = u.lp.activeColumns.length + r₀ ∧
      (r = r₀ → s.lp.columns = u.lp.columns) ∧ s.lp.rows = u.lp.rows)
  | .relaxing n' _ l, s => n ≤ n' ∧ (n = n' → r₀ = 0 ∧ s.lp.columns = u.lp.columns ∧
      s.lp.activeRows.length + l = u.lp.activeRows.length)
  | .passed n' r l, s => n ≤ n' ∧ (n = n' → r₀ ≤ r ∧
      s.lp.activeColumns.length + r = u.lp.activeColumns.length + r₀ ∧
      s.lp.activeRows.length + l = u.lp.activeRows.length ∧
      (r = r₀ → s.lp.columns = u.lp.columns) ∧ (l ≠ 0 → r = 0))
  | _, s => n ≤ s.iterations

theorem Move.since {n r₀ : Nat} {u : Run P K} (h : Move p a b) (hplaced : Placed a.1 a.2)
    (ha : Since n r₀ u a.1 a.2) : Since n r₀ u b.1 b.2 := by
  cases h with
  | solve => exact ha.elim
  | enter _ _ hit =>
    have hlt : n < _ := (Nat.lt_succ_of_le ha).trans_eq hit.symm
    exact ⟨hlt.le, fun heq => absurd heq hlt.ne⟩
  | skip _ h =>
    obtain ⟨hle, hsame⟩ := ha
    exact ⟨hle, fun heq => by rw [h.1]; exact hsame heq⟩
  | fix _ hf =>
    simp only [Since] at ha ⊢
    obtain ⟨hle, hsame⟩ := ha
    refine ⟨hle, fun heq => ?_⟩
    obtain ⟨hr, hcount, -, hrows⟩ := hsame heq
    have hfewer := Model.length_activeColumns_fix hf
    obtain ⟨c, -, -, hlp⟩ := Model.returns_fixColumn.mp hf
    refine ⟨by omega, by omega, fun h => by omega, ?_⟩
    rw [hlp]
    exact hrows
  | idle =>
    obtain ⟨hle, hsame⟩ := ha
    refine ⟨hle, fun heq => ?_⟩
    obtain ⟨hr, -, hcolumns, hrows⟩ := hsame heq
    exact ⟨Nat.le_zero.mp hr, hcolumns (Nat.le_zero.mp hr).symm,
      by rw [Model.activeRows, hrows]; rfl⟩
  | busy =>
    obtain ⟨hle, hsame⟩ := ha
    refine ⟨hle, fun heq => ?_⟩
    obtain ⟨hr, hcount, hcolumns, hrows⟩ := hsame heq
    exact ⟨hr, hcount, by rw [Model.activeRows, hrows]; rfl, hcolumns, fun h => absurd rfl h⟩
  | leave _ h =>
    obtain ⟨hle, hsame⟩ := ha
    exact ⟨hle, fun heq => by rw [h.1]; exact hsame heq⟩
  | relax _ _ hr =>
    simp only [Since] at ha ⊢
    obtain ⟨hle, hsame⟩ := ha
    refine ⟨hle, fun heq => ?_⟩
    obtain ⟨hzero, hcolumns, hcount⟩ := hsame heq
    have hfewer := Model.length_activeRows_relax hr
    obtain ⟨r, -, -, hlp⟩ := Model.returns_relaxRow.mp hr
    refine ⟨hzero, ?_, by omega⟩
    rw [hlp]
    exact hcolumns
  | pass =>
    obtain ⟨hle, hsame⟩ := ha
    refine ⟨hle, fun heq => ?_⟩
    obtain ⟨rfl, hcolumns, hcount⟩ := hsame heq
    exact ⟨le_rfl, by rw [Model.activeColumns, hcolumns]; rfl, hcount, fun _ => hcolumns,
      fun _ => rfl⟩
  | resolve _ h => exact (ha.1.trans hplaced.le).trans h.iterations.ge
  | ended h => exact ha.trans h.2.ge

theorem Walk.since (hp : p.Restrained) {n r₀ : Nat} {u : Run P K} (h : Walk p p.ask a b)
    (hplaced : Placed a.1 a.2) (ha : Since n r₀ u a.1 a.2) : Since n r₀ u b.1 b.2 := by
  induction h with
  | refl => exact ha
  | tail hwalk hstep ih => exact (hstep.move hp).since (Walk.placed hp hwalk hplaced) ih

def Capped (k : Int) : Stage K → Prop
  | .relaxing _ _ l => l ≤ k
  | .passed _ _ l => l ≤ k
  | _ => True

theorem Reached.capped (hp : p.Restrained) {k : Int}
    (hk : (relaxationLimit (some k) : Except (Fault K) _) = .ok p.limit) {stage : Stage K}
    (h : Reached p p.ask s stage t) : Capped k stage := by
  obtain ⟨hpos, hlimit⟩ : 1 ≤ k ∧ p.limit = fun relaxed : Nat => decide (k ≤ relaxed) := by
    simp only [relaxationLimit] at hk
    split at hk
    · cases hk
    · next hlt => exact ⟨not_lt.mp hlt, (Except.ok.inj hk).symm⟩
  refine h.induct trivial fun _ hstep ih => ?_
  cases hstep.move hp with
  | idle => exact (Int.le_trans Int.one_nonneg hpos)
  | busy => exact (Int.le_trans Int.one_nonneg hpos)
  | leave => exact ih
  | @relax _ _ _ n i l rest hl =>
    have hlt : ¬ k ≤ (l : Int) := by simpa [hlimit] using hl
    show ((l + 1 : Nat) : Int) ≤ k
    omega
  | pass => exact ih
  | solve | enter | skip | fix | resolve | ended => trivial

/-- How a run from `s` goes: `Reached` describes it, and at its points the rounding rule is asked
where the stage is `rounding` with a column left, the relaxation policy where it is `relaxing` with
a row left and the limit allows, and the stop policy where the stage is `solved` and optimal. -/
structure Orderly [Backend K] (p : Policies P K) (s : Run P K) : Prop where
  returned : ∀ {out t}, Returns (run p) s out t → Reached p p.ask s (.ended out) t
  failed : ∀ {e t}, Fails (run p) s e t → Falls p p.ask (.begun, s) e t ∨
    e = .unfinished ∧ s.iterations + Backend.passes K ≤ t.iterations ∧
      ∃ first, Reached p p.ask s (.solved first .optimal) t
  /-- Columns are asked about while they are active. -/
  asked : ∀ {n j rest r t}, Reached p p.ask s (.rounding n (j :: rest) r) t →
    j ∈ t.lp.activeColumns
  /-- In one iteration no column is asked about twice, and none before one of a lower id. -/
  ascending : ∀ {n j rest r t n' j' rest' r' u}, Reached p p.ask s (.rounding n (j :: rest) r) t →
    Relation.TransGen (Step p p.ask) (.rounding n (j :: rest) r, t)
      (.rounding n' (j' :: rest') r', u) → n < n' ∨ n = n' ∧ j < j'
  /-- A column gets the constant that was just asked for, and had none before. -/
  fixed : ∀ {stage t stage' u j}, Reached p p.ask s stage t →
    Step p p.ask (stage, t) (stage', u) → u.lp.fixedAt j ≠ t.lp.fixedAt j →
    t.lp.fixedAt j = none ∧ ∃ n rest r v w, stage = .rounding n (j :: rest) r ∧
      Returns (p.ask j) t (some v) w ∧ u.lp.fixedAt j = some v
  /-- A constant stays, and its column is not asked about again. -/
  constant : ∀ {stage t stage' u j v}, Reached p p.ask s stage t →
    Walk p p.ask (stage, t) (stage', u) → t.lp.fixedAt j = some v →
    u.lp.fixedAt j = some v ∧ ∀ n rest r, stage' ≠ .rounding n (j :: rest) r
  /-- A row goes when the relaxation policy has just let it go. -/
  relaxed : ∀ {stage t stage' u i}, Reached p p.ask s stage t →
    Step p p.ask (stage, t) (stage', u) → i ∈ t.lp.activeRows → i ∉ u.lp.activeRows →
    ∃ n rest l w, stage = .relaxing n (i :: rest) l ∧ p.limit l = false ∧
      Returns (p.relax i) t true w
  /-- A row that is gone stays away, and is not asked about again. -/
  gone : ∀ {stage t stage' u i}, Reached p p.ask s stage t →
    Walk p p.ask (stage, t) (stage', u) → i < t.lp.rows.length → i ∉ t.lp.activeRows →
    i ∉ u.lp.activeRows ∧ ∀ n rest l, stage' ≠ .relaxing n (i :: rest) l
  /-- The count of a relax pass is what a limit allows at most. -/
  limited : ∀ {k : Int} {n r l t},
    (relaxationLimit (some k) : Except (Fault K) _) = .ok p.limit →
    Reached p p.ask s (.passed n r l) t → (l : Int) ≤ k
  /-- The counts of both passes are right, and no row goes where a column was fixed. -/
  counted : ∀ {n columns t r l u}, Reached p p.ask s (.rounding n columns 0) t →
    Walk p p.ask (.rounding n columns 0, t) (.passed n r l, u) →
    u.lp.activeColumns.length + r = t.lp.activeColumns.length ∧
      u.lp.activeRows.length + l = t.lp.activeRows.length ∧ (l ≠ 0 → r = 0)
  /-- A relax pass only follows a round pass that has left all columns as they were. -/
  exclusive : ∀ {n columns r t rows l u}, Reached p p.ask s (.rounding n columns r) t →
    Walk p p.ask (.rounding n columns r, t) (.relaxing n rows l, u) →
    r = 0 ∧ u.lp.columns = t.lp.columns
  /-- What comes after the passes of an iteration that has fixed or relaxed something is one
  resolve. -/
  resolved : ∀ {n r l t b}, Reached p p.ask s (.passed n r l) t →
    Relation.TransGen (Step p p.ask) (.passed n r l, t) b → ¬ (r = 0 ∧ l = 0) ∧
      ∃ st u, Returns (do Action.note (.iterated n r l); resolve p) t st u ∧
        Walk p p.ask (.solved false st, u) b
  /-- After a solve the run goes on with the next iteration, once the stop policy has refused to
  end it, or it has ended. -/
  questioned : ∀ {first st t b}, Reached p p.ask s (.solved first st) t →
    Relation.TransGen (Step p p.ask) (.solved first st, t) b →
    (st = .optimal ∧ ∃ u n v, Returns p.stop t false u ∧ Returns beginIteration u n v ∧
      Walk p p.ask (.rounding n v.lp.activeColumns 0, v) b) ∨ ∃ out, b = (.ended out, b.2)
  /-- Nothing is asked after a solve without an optimal point or once the stop policy holds. -/
  final : ∀ {first st t b}, Reached p p.ask s (.solved first st) t →
    (st ≠ .optimal ∨ ∃ u, Returns p.stop t true u) →
    Relation.TransGen (Step p p.ask) (.solved first st, t) b → ∃ out, b = (.ended out, b.2)

theorem walk_of_ended {out : Outcome K} {rule : Nat → Action P K (Option K)}
    (h : Walk p rule (.ended out, s) b) : b = (.ended out, s) :=
  h.eq_of_still fun _ => not_step_of_ended

theorem questioned_of_walk {first : Bool} {st : Status}
    (h : Relation.TransGen (Step p p.ask) (.solved first st, t) b) :
    (st = .optimal ∧ ∃ u n v, Returns p.stop t false u ∧ Returns beginIteration u n v ∧
      Walk p p.ask (.rounding n v.lp.activeColumns 0, v) b) ∨ ∃ out, b = (.ended out, b.2) := by
  obtain ⟨c, hstep, hwalk⟩ := Relation.TransGen.head'_iff.mp h
  cases hstep with
  | enter hb hn => exact .inl ⟨rfl, _, _, _, hb, hn, hwalk⟩
  | finish =>
    obtain rfl := walk_of_ended hwalk
    exact .inr ⟨_, rfl⟩
  | lose =>
    obtain rfl := walk_of_ended hwalk
    exact .inr ⟨_, rfl⟩

/-- Every run by restrained policies is orderly, whether it returns or fails. -/
theorem run_orderly [Backend K] (hp : p.Restrained) (s : Run P K) : Orderly p s where
  returned := reached_of_returns
  failed := falls_of_run hp
  asked h := (Reached.placed hp h).2.2 _ List.mem_cons_self
  ascending {n j rest r t n' j' rest' r' u} h hw := by
    obtain ⟨c, hstep, hwalk⟩ := Relation.TransGen.head'_iff.mp hw
    have hplaced := Reached.placed hp h
    have hlt := (List.pairwise_cons.mp hplaced.2.1).1
    have hpast : Past n j c.1 c.2 := by
      cases hstep.move hp with
      | skip => exact .inr ⟨rfl, hlt⟩
      | fix => exact .inr ⟨rfl, hlt⟩
    exact (Walk.past hp hwalk ((hstep.move hp).placed hplaced) hpast).imp id
      fun hu => ⟨hu.1, hu.2 _ List.mem_cons_self⟩
  fixed {stage t stage' u j} _ hstep hne := by
    rcases (hstep.move hp).columns with heq | ⟨n, i, rest, r, w, v, rfl, hv, hf⟩
    · exact absurd (congrArg (fun cs => cs[j]?.bind Column.fixed) heq) hne
    · obtain ⟨c, hc, hnone, hlp⟩ := Model.returns_fixColumn.mp hf
      dsimp only at hc hlp hv
      rw [hlp, Model.fixedAt_set hc] at hne ⊢
      by_cases hj : j = i
      · subst hj
        exact ⟨by simp [Model.fixedAt, hc, hnone], n, rest, r, v, w, rfl, hv, if_pos rfl⟩
      · exact absurd (if_neg hj) hne
  constant {stage t stage' u j v} h hw hv := by
    have hu := (Walk.later hp hw).constant hv
    refine ⟨hu, ?_⟩
    rintro n rest r rfl
    have hactive := (Reached.placed hp (h.trans hw)).2.2 _ List.mem_cons_self
    cases (Model.mem_activeColumns_iff.mp hactive).2.symm.trans hu
  relaxed {stage t stage' u i} _ hstep hi hn := by
    have same {m m' : Model K} (hi : i ∈ m.activeRows) (hn : i ∉ m'.activeRows)
        (h : m'.rows = m.rows) : False := by
      rw [Model.activeRows, h] at hn
      exact hn hi
    cases hstep.move hp with
    | solve h | resolve _ h =>
      obtain ⟨⟨rows, solution, hlp⟩, -⟩ := h
      obtain ⟨r, hr, hk⟩ := Model.mem_activeRows.mp hi
      refine absurd (Model.mem_activeRows.mpr ⟨r, ?_, hk⟩) hn
      rw [hlp]
      exact (List.getElem?_append_left (List.getElem?_eq_some_iff.mp hr).1).trans hr
    | enter _ hlp => exact (same hi hn (by rw [hlp])).elim
    | skip _ h | leave _ h | ended h => exact (same hi hn (by rw [h.1])).elim
    | idle | busy | pass => exact absurd hi hn
    | fix _ hf =>
      obtain ⟨c, -, -, hlp⟩ := Model.returns_fixColumn.mp hf
      exact (same hi hn (by rw [hlp])).elim
    | @relax _ _ w n i' l rest hl hb hr =>
      by_cases hii : i = i'
      · subst hii
        exact ⟨n, rest, l, w, rfl, hl, hb⟩
      · exact absurd ((Model.mem_activeRows_relax hr).mpr ⟨hi, hii⟩) hn
  gone {stage t stage' u i} h hw hi hn := by
    have hu := (Walk.later hp hw).gone hi hn
    refine ⟨hu, ?_⟩
    rintro n rest l rfl
    exact hu ((Reached.placed hp (h.trans hw)).2.2 _ List.mem_cons_self)
  limited hk h := Reached.capped hp hk h
  counted {n columns t r l u} h hw := by
    have hsince : Since n 0 t (.passed n r l) u := Walk.since hp hw (Reached.placed hp h)
      ⟨le_rfl, fun _ => ⟨le_rfl, rfl, fun _ => rfl, rfl⟩⟩
    obtain ⟨-, hcolumns, hrows, -, hl⟩ := hsince.2 rfl
    exact ⟨hcolumns, hrows, hl⟩
  exclusive {n columns r t rows l u} h hw := by
    have hsince : Since n r t (.relaxing n rows l) u := Walk.since hp hw (Reached.placed hp h)
      ⟨le_rfl, fun _ => ⟨le_rfl, rfl, fun _ => rfl, rfl⟩⟩
    obtain ⟨hr, hcolumns, -⟩ := hsince.2 rfl
    exact ⟨hr, hcolumns⟩
  resolved {n r l t b} _ hw := by
    obtain ⟨c, hstep, hwalk⟩ := Relation.TransGen.head'_iff.mp hw
    cases hstep with
    | resolve hn h => exact ⟨hn, _, _, h, hwalk⟩
  questioned _ hw := questioned_of_walk hw
  final {first st t b} _ hover hw := by
    rcases questioned_of_walk hw with ⟨hst, u, n, v, hgo, -⟩ | hended
    · rcases hover with hne | ⟨u', hstop⟩
      · exact absurd hst hne
      · cases (hgo.unique hstop).1
    · exact hended

end Engine

namespace Explicit

theorem restrained [Backend K] {c : Choices K} {p : Policies (Explicit K) K}
    (h : policies.replace c = .ok p) : p.Restrained := by
  have hcommit {s t : Run (Explicit K) K} {j : Nat}
      (h : Returns (Roundable.commit j) s () t) : Engine.Still s t := (returns_throw.mp h).elim
  have hpolicies : (policies : Policies (Explicit K) K).Restrained := by
    refine ⟨Action.solveModel_appended, Action.solveModel_appended,
      RoundRule.apply_still hcommit _, ?_, StopRule.still .allFixed, ?_⟩
    · intro s t i b h
      obtain ⟨-, rfl⟩ := returns_pure.mp h
      exact .refl _
    · intro s t h
      obtain ⟨-, rfl⟩ := returns_pure.mp h
      exact .refl _
  refine hpolicies.replace hcommit ?_ ?_ h
  · intro s t b h
    obtain ⟨-, rfl⟩ := returns_pure.mp h
    exact .refl _
  · intro s t i h
    exact (returns_throw.mp h).elim

def half : Explicit ℚ where
  tolerance := ⟨1 / 10⟩
  name := ""
  direction := .minimize
  columns := [{ cost := -1, bound := "DB", lo := 0, hi := some 1 }]
  rows := [{ bound := "UP", lo := 0, hi := 1, coefs := [(0, 2)] }]
  note := none

def halfModel : Model ℚ where
  columns := [{ cost := -1, bound := { kind := .double, lo := 0, hi := 1 } }]
  rows := [{ bound := { kind := .upper, lo := 0, hi := 1 }, coefs := [(0, 2)] }]
  loaded := true

@[reducible] def halfBackend : Backend ℚ :=
  .trying [[1], [1 / 2]] (fun _ _ _ => { value := 0, net := fun _ _ => 0 }) 5

end Explicit

theorem half_orderly :
    let _ := Explicit.halfBackend
    ∃ (pol : Policies (Explicit ℚ) ℚ) (out : Outcome ℚ) (t : Run (Explicit ℚ) ℚ),
      Explicit.policies.replace { relax := some .always, limit := some (some 1) } = .ok pol ∧
      Returns (Engine.run pol) { problem := Explicit.half, lp := Explicit.halfModel } out t ∧
      out.objective = some (-1) ∧
      Engine.Orderly pol { problem := Explicit.half, lp := Explicit.halfModel } := by
  let _ := Explicit.halfBackend
  obtain ⟨pol, hpol, hrun⟩ := exists_ok
    ((Explicit.policies : Policies (Explicit ℚ) ℚ).replace
      { relax := some .always, limit := some (some 1) })
    (fun pol => yields (Engine.run pol) { problem := Explicit.half, lp := Explicit.halfModel }
      fun out => out.objective = some (-1)) (by decide +kernel)
  obtain ⟨out, t, h, ho⟩ := exists_returns hrun
  exact ⟨pol, out, t, hpol, h, by simpa using ho,
    Engine.run_orderly (Explicit.restrained hpol) _⟩

end LPRounding
