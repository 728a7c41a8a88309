import LPRounding.Proofs.Run.Halting
import LPRounding.Proofs.Run.Separation

/-!
What is behind a run that is stuck. Only an iteration that did nothing says so: no policy does, and
no part of row generation. The iteration began at the point of the last solve, where the rounding
rule declines every open column and the relaxation policy every kept row.
-/

namespace LPRounding

set_option linter.unusedSectionVars false

/-- The fault of an iteration that did nothing. -/
def Fault.IsStuck {K : Type} : Fault K → Prop
  | .stuck .. => True
  | _ => False

variable {P K σ α β : Type}

def Mild (x : Except (Fault K) α) : Prop := ∀ e, x = .error e → ¬ e.IsStuck

namespace Mild

theorem ok (a : α) : Mild (.ok a : Except (Fault K) α) := nofun

theorem error {e : Fault K} (h : ¬ e.IsStuck) : Mild (.error e : Except (Fault K) α) := by
  rintro _ ⟨⟩
  exact h

theorem bind {x : Except (Fault K) α} {f : α → Except (Fault K) β} (hx : Mild x)
    (hf : ∀ a, Mild (f a)) : Mild (x >>= f) := by
  intro e he
  cases x with
  | error e' =>
    obtain rfl := Except.error.inj he
    exact hx e' rfl
  | ok a => exact hf a e he

theorem mapM {f : α → Except (Fault K) β} (hf : ∀ a, Mild (f a)) (xs : List α) :
    Mild (xs.mapM f) := by
  induction xs with
  | nil => exact ok []
  | cons x xs ih =>
    rw [List.mapM_cons]
    exact (hf x).bind fun _ => ih.bind fun _ => ok _

end Mild

def Mute (act : EStateM (Fault K) σ α) : Prop := ∀ s e t, Fails act s e t → ¬ e.IsStuck

namespace Mute

theorem pure (a : α) : Mute (pure a : EStateM (Fault K) σ α) := by
  intro s e t h
  simp at h

theorem throw {e : Fault K} (he : ¬ e.IsStuck) : Mute (throw e : EStateM (Fault K) σ α) := by
  intro s e' t h
  obtain ⟨rfl, -⟩ := fails_throw.mp h
  exact he

theorem bind {act : EStateM (Fault K) σ α} {next : α → EStateM (Fault K) σ β} (h : Mute act)
    (hnext : ∀ a, Mute (next a)) : Mute (act >>= next) := by
  intro s e t hf
  rcases fails_bind.mp hf with hf | ⟨a, u, -, hf⟩
  · exact h s e t hf
  · exact hnext a u e t hf

theorem get : Mute (get : EStateM (Fault K) σ σ) := by
  intro s e t h
  simp at h

theorem modify (f : σ → σ) : Mute (modify f : EStateM (Fault K) σ PUnit) := by
  intro s e t h
  simp at h

theorem set (u : σ) : Mute (set u : EStateM (Fault K) σ PUnit) := nofun

theorem lift {x : Except (Fault K) α} (h : Mild x) : Mute (liftM x : EStateM (Fault K) σ α) := by
  intro s e t hf
  exact h e (fails_lift.mp hf).1

theorem note (e : Event K) : Mute (Action.note e : Action P K Unit) := modify _

theorem model : Mute (Action.model : Action P K (Model K)) := get.bind fun _ => pure _

theorem problem : Mute (Action.problem : Action P K P) := get.bind fun _ => pure _

theorem onModel {edit : Edit K α} (h : Mute edit) : Mute (Action.onModel edit : Action P K α) := by
  intro s e t hf
  obtain ⟨m, hm, -⟩ := Action.fails_onModel.mp hf
  exact h s.lp e m hm

theorem onProblem {change : EStateM (Fault K) P α} (h : Mute change) :
    Mute (Action.onProblem change : Action P K α) := by
  intro s e t hf
  cases hc : change s.problem with
  | ok a q =>
    rw [Fails, Action.onProblem, hc] at hf
    cases hf
  | error e' q =>
    rw [Fails, Action.onProblem, hc] at hf
    cases hf
    exact h _ _ _ hc

end Mute

variable [Field K] [LinearOrder K] [IsStrictOrderedRing K] [FloorRing K]

namespace Model

variable (m : Model K) (i : Nat)

theorem mild_column : Mild (m.column i) := by
  unfold column
  split
  · exact .ok _
  · exact .error id

theorem mild_row : Mild (m.row i) := by
  unfold row
  split
  · exact .ok _
  · exact .error id

theorem mild_lastSolution : Mild m.lastSolution := by
  unfold lastSolution
  split
  · exact .ok _
  · exact .error id

theorem mild_value (s : Solution K) : Mild (s.value i) := by
  unfold Solution.value
  split
  · exact .ok _
  · exact .error id

theorem mild_columnValue : Mild (m.columnValue i) :=
  (m.mild_column i).bind fun _ => m.mild_lastSolution.bind fun s => mild_value i s

theorem mild_rowDegree : Mild (m.rowDegree i) := (m.mild_row i).bind fun _ => .ok _

theorem mild_objective : Mild m.objective := m.mild_lastSolution.bind fun _ => .ok _

theorem mute_fixColumn (v : K) : Mute (fixColumn i v) := by
  refine Mute.get.bind fun m => (Mute.lift (m.mild_column i)).bind fun c => ?_
  split
  · exact .throw id
  · exact .set _

theorem mute_relaxRow : Mute (relaxRow (K := K) i) := by
  refine Mute.get.bind fun m => (Mute.lift (m.mild_row i)).bind fun r => ?_
  split
  · exact (Mute.throw id).bind fun _ => .set _
  · exact (Mute.pure _).bind fun _ => .set _

theorem mute_appendRow (r : Row K) : Mute (appendRow r) :=
  Mute.get.bind fun _ => (Mute.set _).bind fun _ => .pure _

theorem mute_solve (solver : Solver K) : Mute (solve solver) := by
  intro m e t h
  cases hl : m.loaded with
  | false =>
    simp only [solve, fails_bind, fails_get, returns_get, false_or] at h
    obtain ⟨_, _, ⟨rfl, rfl⟩, h⟩ := h
    simp only [hl, Bool.not_false, if_true] at h
    obtain ⟨rfl, -⟩ := h
    exact id
  | true =>
    rcases (ends_iff.mp (solve_ends hl)).2 e t h with ⟨part, -, rfl⟩ | ⟨-, rfl⟩
    · exact id
    · exact id

end Model

theorem Action.mute_solveModel [Backend K] : Mute (Action.solveModel : Action P K Status) := by
  refine (Mute.onModel (Model.mute_solve _)).bind fun st => Mute.model.bind fun m => ?_
  split
  · dsimp only
    split <;> exact (Mute.note _).bind fun _ => .pure _
  · exact .pure _

structure Checker.Gentle {C N : Type} (k : Checker P K C N) : Prop where
  prepare : ∀ p m, Mild (k.prepare p m)
  check : ∀ p n c, Mild (k.check p n c)

namespace Oracle

variable {S C N : Type} [Dice S K] {t : Tolerance K} {check : C → Except (Fault K) (Violation K C)}
  {h : Home P K S C N} {k : Checker P K C N} {tolerance : P → Tolerance K}

theorem mild_scan (h : ∀ c, Mild (check c)) (cs : List C) : Mild (Search.scan t check cs) := by
  induction cs with
  | nil => exact .ok _
  | cons c rest ih =>
    refine (h c).bind fun v => ?_
    split
    · exact .ok _
    · exact ih.bind fun _ => .ok _

theorem mild_worst (h : ∀ c, Mild (check c)) (cs : List C) : Mild (Search.worst t check cs) :=
  (Mild.mapM h cs).bind fun _ => .ok _

theorem mute_search (h : ∀ c, Mild (check c)) (cs : List C) :
    Mute (search (N := N) (S := S) t check cs) := by
  refine Mute.get.bind fun o => ?_
  split
  · exact .lift (mild_scan h cs)
  · exact .lift (mild_worst h cs)
  · refine Mute.get.bind fun o => ?_
    exact (Mute.modify _).bind fun _ => .lift (mild_scan h _)

theorem mute_examine (hk : k.Gentle) (p : P) (m : Model K) :
    Mute (examine (S := S) k t p m) := by
  refine (Mute.lift (hk.prepare p m)).bind fun prepared => ?_
  refine (Mute.modify _).bind fun _ => ?_
  split
  · exact (Mute.pure _).bind fun _ => (Mute.modify _).bind fun _ => .pure _
  · exact (mute_search (hk.check p _) _).bind fun _ => (Mute.modify _).bind fun _ => .pure _

theorem mute_take : Mute (take : EStateM (Fault K) (Oracle K S C N) (Violation K C)) := by
  refine Mute.get.bind fun o => ?_
  split
  · exact .throw id
  · exact (Mute.set _).bind fun _ => .pure _

theorem mute_lift {f : P → EStateM (Fault K) (Oracle K S C N) α}
    (hf : ∀ p, Mute (f p)) : Mute (h.lift f) := by
  intro p e q hq
  cases hc : f p (h.get p) with
  | ok a o =>
    rw [Fails, Home.lift, hc] at hq
    cases hq
  | error e' o =>
    rw [Fails, Home.lift, hc] at hq
    cases hq
    exact hf p _ _ _ hc

theorem mute_feasible (hk : k.Gentle) : Mute (feasible h k tolerance) :=
  Mute.model.bind fun m =>
    (Mute.onProblem (mute_lift fun p => mute_examine hk p m)).bind fun _ => .pure _

theorem mute_separate : Mute (separate h k) :=
  Mute.problem.bind fun _ => (Mute.onProblem (mute_lift fun _ => mute_take)).bind fun _ =>
    (Mute.onModel (Model.mute_appendRow _)).bind fun _ => (Mute.note _).bind fun _ => .pure _

end Oracle

theorem Network.mild_siteCut {find : FlowFinder Site K} {n : Network Site K} {ε : K} {s t : Site} :
    Mild (n.siteCut find ε s t) := by
  intro e he
  unfold siteCut at he
  cases hc : n.minCut find ε s t with
  | ok c =>
    rw [hc] at he
    cases he
  | error f =>
    rw [hc] at he
    obtain rfl := Except.error.inj he
    cases f <;> exact id

section Rules

variable [Roundable P K]

theorem mute_generateRows [Backend K] (hfeasible : Mute (Roundable.feasible (P := P) (K := K)))
    (hseparate : Mute (Roundable.separate (P := P) (K := K))) (passes : Nat) (st : Status) :
    Mute (generateRows passes st : Action P K Status) := by
  induction passes generalizing st with
  | zero =>
    cases st with
    | optimal => exact .throw id
    | infeasible | unbounded => exact (Mute.note _).bind fun _ => .pure _
  | succ passes ih =>
    cases st with
    | optimal =>
      refine hfeasible.bind fun b => ?_
      split
      · exact .pure _
      · exact hseparate.bind fun _ => Action.mute_solveModel.bind fun st => ih st
    | infeasible | unbounded => exact (Mute.note _).bind fun _ => .pure _

namespace RoundRule

theorem mute_atValue (value : K) (j : Nat) : Mute (atValue (P := P) value j) :=
  Mute.model.bind fun m => (Mute.lift (m.mild_columnValue j)).bind fun _ =>
    (Mute.problem.bind fun _ => .pure _).bind fun _ => .pure _

theorem mute_atHalf (j : Nat) : Mute (atHalf (P := P) (K := K) j) :=
  Mute.model.bind fun m => (Mute.lift (m.mild_columnValue j)).bind fun _ =>
    (Mute.problem.bind fun _ => .pure _).bind fun _ => .pure _

theorem mute_committing {take : Nat → Action P K (Option K)} (htake : ∀ j, Mute (take j))
    (hcommit : ∀ j, Mute (Roundable.commit (P := P) (K := K) j)) (j : Nat) :
    Mute (committing take j) := by
  refine (mute_atValue 0 j).bind fun v => ?_
  split
  · exact .pure _
  · refine (htake j).bind fun v => ?_
    split
    · exact (hcommit j).bind fun _ => .pure _
    · exact (Mute.pure _).bind fun _ => .pure _

theorem mute_commitHalf (hcommit : ∀ j, Mute (Roundable.commit (P := P) (K := K) j)) (j : Nat) :
    Mute (commitHalf.apply (P := P) (K := K) j) := mute_committing mute_atHalf hcommit j

theorem mute_commitOne (hcommit : ∀ j, Mute (Roundable.commit (P := P) (K := K) j)) (j : Nat) :
    Mute (commitOne.apply (P := P) (K := K) j) := mute_committing (mute_atValue 1) hcommit j

end RoundRule

end Rules

variable [Roundable P K]

structure Policies.Mute (p : Policies P K) : Prop where
  ask : ∀ j, LPRounding.Mute (p.ask j)
  relax : ∀ i, LPRounding.Mute (p.relax i)
  setSolution : LPRounding.Mute p.setSolution
  solve : LPRounding.Mute p.solve
  resolve : LPRounding.Mute p.resolve
  stop : LPRounding.Mute p.stop

namespace Engine

variable {p : Policies P K} {s t : Run P K} {a : Stage K × Run P K} {e : Fault K}
  {base pass point : P → Model K → Prop}

theorem mute_report (st : Status) : Mute (report st : Action P K Unit) :=
  Mute.model.bind fun _ => .note _

theorem Halts.of_isStuck (hp : p.Mute) (h : Halts p p.ask a e t) (he : e.IsStuck) :
    ∃ n u, a = (.passed n 0 0, u) := by
  cases h with
  | solve h =>
    exact absurd he ((hp.solve.bind fun st => (mute_report st).bind fun _ => .pure _) _ _ _ h)
  | stop h => exact absurd he (hp.stop _ _ _ h)
  | ask h => exact absurd he (hp.ask _ _ _ _ h)
  | fix _ h => exact absurd he (Mute.onModel (Model.mute_fixColumn _ _) _ _ _ h)
  | relax _ h => exact absurd he (hp.relax _ _ _ _ h)
  | drop _ _ h => exact absurd he (Mute.onModel (Model.mute_relaxRow _) _ _ _ h)
  | stuck => exact ⟨_, _, rfl⟩
  | resolve _ h =>
    exact absurd he (((Mute.note _).bind fun _ =>
      hp.resolve.bind fun st => (mute_report st).bind fun _ => .pure _) _ _ _ h)
  | finish _ h =>
    exact absurd he ((hp.setSolution.bind fun _ => Mute.model.bind fun m =>
      (Mute.lift m.mild_objective).bind fun _ => Mute.get.bind fun _ =>
        (Mute.note _).bind fun _ => .pure _) _ _ _ h)

theorem idles_of_isStuck [Backend K] (hp : p.Restrained) (hmute : p.Mute)
    (h : Fails (run p) s e t) (he : e.IsStuck) : ∃ n u, Idles p s n u := by
  rcases falls_of_run hp h with ⟨a, hwalk, hhalts⟩ | ⟨rfl, -⟩
  · obtain ⟨n, u, rfl⟩ := hhalts.of_isStuck hmute he
    exact ⟨n, u, idles_iff.mpr hwalk⟩
  · exact he.elim

/-- Every open column is declined and every kept row is left, as the run stands. -/
def Vain (p : Policies P K) (s : Run P K) : Prop :=
  (∀ j ∈ s.lp.activeColumns, ∃ u v, s.Agree u ∧ Returns (p.ask j) u none v) ∧
    ∀ i ∈ s.lp.activeRows, ∃ u v, s.Agree u ∧ Returns (p.relax i) u false v

theorem Idles.vain [Backend K] (k : Keeps p p.ask base pass point)
    (hstop : p.stop = StopRule.allFixed.apply) (hlimit : p.limit 0 = false) {n : Nat}
    (h : Idles p s n t) : ∃ first u, Reached p p.ask s (.solved first .optimal) u ∧
      u.lp.activeColumns ≠ [] ∧ Vain p u := by
  obtain ⟨w, x, ⟨first, u, v, hreach, hgo, hbegin⟩, hdeclines, hrelax⟩ := h
  rw [hstop] at hgo
  obtain ⟨rfl, hopen⟩ := returns_goOn hgo
  have hw := returns_beginIteration hbegin
  have hround : Returns (roundColumns p.ask w.lp.activeColumns 0) w 0 x := declines_iff.mp hdeclines
  have hx := hw.trans ((roundColumns_idle k hround).2 rfl)
  simp only [relax, returns_bind, Action.returns_model] at hrelax
  obtain ⟨_, _, ⟨rfl, rfl⟩, hrelax⟩ := hrelax
  refine ⟨first, u, hreach, hopen, fun j hj => ?_, fun i hi => ?_⟩
  · obtain ⟨y, z, hy, hz⟩ := roundColumns_vain k hround j (hw.2.symm ▸ hj)
    exact ⟨y, z, hw.trans hy, hz⟩
  · obtain ⟨y, z, hy, hz⟩ := relaxRows_vain k hlimit hrelax i (hx.2.symm ▸ hi)
    exact ⟨y, z, hx.trans hy, hz⟩

/-- Where no point of a run that leaves a column open is in vain, no iteration is stuck. -/
theorem not_isStuck_of_run [Backend K] (hp : p.Restrained) (hmute : p.Mute)
    (k : Keeps p p.ask base pass point) (hstop : p.stop = StopRule.allFixed.apply)
    (hlimit : p.limit 0 = false)
    (hmoves : ∀ {first : Bool} {u : Run P K}, Reached p p.ask s (.solved first .optimal) u →
      u.lp.activeColumns ≠ [] → ¬ Vain p u) (h : Fails (run p) s e t) : ¬ e.IsStuck := by
  intro he
  obtain ⟨n, x, hidles⟩ := idles_of_isStuck hp hmute h he
  obtain ⟨first, u, hreach, hopen, hvain⟩ := hidles.vain k hstop hlimit
  exact hmoves hreach hopen hvain

theorem mute_checkInput (hcheck : Mute (Roundable.check (P := P) (K := K))) :
    Mute (checkInput : Action P K Unit) := by
  refine hcheck.bind fun issue => ?_
  split
  · exact .throw id
  · exact .pure _

theorem not_isStuck_of_solveProblem [Backend K]
    (hcheck : Mute (Roundable.check (P := P) (K := K))) (hinit : Mute p.init)
    (hrun : ∀ {u v : Run P K}, Returns Roundable.check s none u → Returns p.init u () v →
      Fails (run p) v e t → ¬ e.IsStuck) (h : Fails (solveProblem p) s e t) : ¬ e.IsStuck := by
  rcases fails_bind.mp h with h | ⟨_, u, hu, h⟩
  · exact mute_checkInput hcheck s e t h
  rcases fails_bind.mp h with h | ⟨_, v, hv, h⟩
  · exact hinit u e t h
  · exact hrun (returns_checkInput hu) hv h

end Engine

end LPRounding
