import LPRounding.Proofs.Run.Invariant

/-!
The points of a plain run between two of its operations. A run is a walk through its stages, one
step for each solve, each column a round pass asks about and each row a relax pass asks about; a run
that has not come to an end, or that will fail, has passed through some of them.
-/

namespace LPRounding

set_option linter.unusedSectionVars false

/-- What a plain run asks about a column; a bundle that rounds whole points refuses. -/
def Policies.ask {P K : Type} (p : Policies P K) : Nat → Action P K (Option K) :=
  match p.rounding with
  | .perColumn rule => rule
  | .wholePoint _ => fun _ => throw .wrongRounding

namespace Engine

/-- Where a run stands, with what is still to be done of the pass it is in. -/
inductive Stage (K : Type) where
  | begun
  /-- A solve or resolve has ended; `first` for the one before all iterations. -/
  | solved (first : Bool) (status : Status)
  | rounding (iteration : Nat) (columns : List Nat) (rounded : Nat)
  | relaxing (iteration : Nat) (rows : List Nat) (relaxed : Nat)
  /-- The passes of an iteration have ended. -/
  | passed (iteration rounded relaxed : Nat)
  | ended (out : Outcome K)

def Stage.IsLost {K : Type} (stage : Stage K) : Prop :=
  ∃ out, stage = .ended out ∧ out.status = .infeasible

variable {P K : Type} [Scalar K] [Roundable P K]

def failure (first : Bool) (status : Status) (s : Run P K) : Event K :=
  if first then .notSolved s.lp.name status else .lost s.lp.name status s.iterations

/-- One operation of a run whose columns are rounded by `rule`. -/
inductive Step (p : Policies P K) (rule : Nat → Action P K (Option K)) :
    Stage K × Run P K → Stage K × Run P K → Prop where
  | solve {s t : Run P K} {st : Status} : Returns (Engine.solve p) s st t →
      Step p rule (.begun, s) (.solved true st, t)
  | enter {s t u : Run P K} {first : Bool} {n : Nat} : Returns p.stop s false u →
      Returns beginIteration u n t →
      Step p rule (.solved first .optimal, s) (.rounding n t.lp.activeColumns 0, t)
  | skip {s t : Run P K} {n j r : Nat} {rest : List Nat} : Returns (rule j) s none t →
      Step p rule (.rounding n (j :: rest) r, s) (.rounding n rest r, t)
  | fix {s t u : Run P K} {n j r : Nat} {rest : List Nat} {v : K} :
      Returns (rule j) s (some v) u →
      Returns (do Action.onModel (Model.fixColumn j v); Action.note (.rounded j v)) u () t →
      Step p rule (.rounding n (j :: rest) r, s) (.rounding n rest (r + 1), t)
  | idle {s : Run P K} {n : Nat} :
      Step p rule (.rounding n [] 0, s) (.relaxing n s.lp.activeRows 0, s)
  | busy {s : Run P K} {n r : Nat} : r ≠ 0 → Step p rule (.rounding n [] r, s) (.passed n r 0, s)
  | leave {s t : Run P K} {n i l : Nat} {rest : List Nat} : p.limit l = false →
      Returns (p.relax i) s false t →
      Step p rule (.relaxing n (i :: rest) l, s) (.relaxing n rest l, t)
  | relax {s t u : Run P K} {n i l : Nat} {rest : List Nat} : p.limit l = false →
      Returns (p.relax i) s true u →
      Returns (do Action.onModel (Model.relaxRow i); Action.note (.relaxed i)) u () t →
      Step p rule (.relaxing n (i :: rest) l, s) (.relaxing n rest (l + 1), t)
  | limit {s : Run P K} {n i l : Nat} {rest : List Nat} : p.limit l = true →
      Step p rule (.relaxing n (i :: rest) l, s) (.passed n 0 l, s)
  | out {s : Run P K} {n l : Nat} : Step p rule (.relaxing n [] l, s) (.passed n 0 l, s)
  | resolve {s t : Run P K} {n r l : Nat} {st : Status} : ¬ (r = 0 ∧ l = 0) →
      Returns (do Action.note (.iterated n r l); Engine.resolve p) s st t →
      Step p rule (.passed n r l, s) (.solved false st, t)
  | finish {s t u : Run P K} {first : Bool} {out : Outcome K} : Returns p.stop s true u →
      Returns (Engine.finish p) u out t →
      Step p rule (.solved first .optimal, s) (.ended out, t)
  | lose {s t : Run P K} {first : Bool} {st : Status} {out : Outcome K} : st ≠ .optimal →
      Returns (do Action.note (failure first st s); giveUp) s out t →
      Step p rule (.solved first st, s) (.ended out, t)

def Walk (p : Policies P K) (rule : Nat → Action P K (Option K)) :
    Stage K × Run P K → Stage K × Run P K → Prop :=
  Relation.ReflTransGen (Step p rule)

def Reached (p : Policies P K) (rule : Nat → Action P K (Option K)) (s : Run P K) (stage : Stage K)
    (t : Run P K) : Prop :=
  Walk p rule (.begun, s) (stage, t)

theorem round_eq (p : Policies P K) :
    round p = Action.model >>= fun m => roundColumns p.ask m.activeColumns 0 := by
  unfold round Policies.ask
  congr 1
  funext m
  cases p.rounding with
  | perColumn rule => rfl
  | wholePoint act => cases m.activeColumns <;> rfl

variable {p : Policies P K} {rule : Nat → Action P K (Option K)} {s t : Run P K}

/-- What holds at the start and is kept by each step holds wherever a run comes. -/
@[elab_as_elim]
theorem Reached.induct {motive : Stage K → Run P K → Prop} {stage : Stage K}
    (h : Reached p rule s stage t) (start : motive .begun s)
    (step : ∀ {a b}, Walk p rule (.begun, s) a → Step p rule a b → motive a.1 a.2 →
      motive b.1 b.2) : motive stage t := by
  suffices hb : ∀ b, Walk p rule (.begun, s) b → motive b.1 b.2 from hb _ h
  intro b hb
  induction hb with
  | refl => exact start
  | tail hwalk hstep ih => exact step hwalk hstep ih

theorem Step.calls {act : Action P K Status} (hsolve : p.solve = act) (hresolve : p.resolve = act)
    {a : Stage K × Run P K} {first : Bool} {st : Status}
    (h : Step p rule a (.solved first st, t)) :
    ∃ u v, a.2.Agree u ∧ Returns act u st v ∧ v.Agree t := by
  cases h with
  | solve h =>
    obtain ⟨v, hv, ha⟩ := returns_solve h
    exact ⟨_, v, ⟨rfl, rfl⟩, hsolve ▸ hv, ha⟩
  | resolve _ h =>
    obtain ⟨v, hv, ha⟩ := returns_settle h
    refine ⟨_, v, ?_, hresolve ▸ hv, ha⟩
    exact ⟨rfl, rfl⟩

theorem Step.solves [Backend K] (hsolve : p.solve = Action.solveModel)
    (hresolve : p.resolve = Action.solveModel) {a : Stage K × Run P K} {first : Bool} {st : Status}
    (h : Step p rule a (.solved first st, t)) :
    Returns (Model.solve Backend.solver) a.2.lp st t.lp := by
  obtain ⟨u, v, hu, hv, ht⟩ := h.calls hsolve hresolve
  rw [← hu.2, ht.2]
  exact (Action.returns_solveModel hv).2

theorem walk_roundColumns {columns : List Nat} {n r k : Nat}
    (h : Returns (roundColumns rule columns r) s k t) :
    Walk p rule (.rounding n columns r, s) (.rounding n [] k, t) := by
  induction columns generalizing s r with
  | nil =>
    obtain ⟨rfl, rfl⟩ := returns_pure.mp h
    exact .refl
  | cons j rest ih =>
    unfold roundColumns at h
    obtain ⟨v, u, hv, h⟩ := returns_bind.mp h
    cases v with
    | none => exact .head (.skip hv) (ih h)
    | some v =>
      obtain ⟨_, w, hw, h⟩ := returns_bind.mp h
      obtain ⟨_, x, hx, h⟩ := returns_bind.mp h
      exact .head (.fix hv (returns_bind.mpr ⟨_, w, hw, hx⟩)) (ih h)

theorem walk_relaxRows {rows : List Nat} {n l k : Nat}
    (h : Returns (relaxRows p rows l) s k t) :
    Walk p rule (.relaxing n rows l, s) (.passed n 0 k, t) := by
  induction rows generalizing s l with
  | nil =>
    obtain ⟨rfl, rfl⟩ := returns_pure.mp h
    exact .single .out
  | cons i rest ih =>
    unfold relaxRows at h
    split at h
    · next hl =>
      obtain ⟨rfl, rfl⟩ := returns_pure.mp h
      exact .single (.limit hl)
    next hl =>
    have hl : p.limit l = false := by simpa using hl
    obtain ⟨b, u, hb, h⟩ := returns_bind.mp h
    cases b with
    | false => exact .head (.leave hl hb) (ih h)
    | true =>
      rw [if_pos rfl] at h
      obtain ⟨_, w, hw, h⟩ := returns_bind.mp h
      obtain ⟨_, x, hx, h⟩ := returns_bind.mp h
      exact .head (.relax hl hb (returns_bind.mpr ⟨_, w, hw, hx⟩)) (ih h)

theorem walk_iterate {first : Bool} {u : Run P K}
    (hb : Returns p.stop s false u) {st : Status} (h : Returns (iterate p) u st t) :
    Relation.TransGen (Step p p.ask) (.solved first .optimal, s) (.solved false st, t) := by
  simp only [iterate, round_eq, relax, returns_bind, Action.returns_model] at h
  obtain ⟨n, v, hv, r, w, ⟨_, _, ⟨rfl, rfl⟩, hw⟩, h⟩ := h
  refine .head' (.enter hb hv) ((walk_roundColumns hw).trans ?_)
  by_cases hr : r = 0
  · subst hr
    simp only [if_true, returns_bind, Action.returns_model] at h
    obtain ⟨l, x, ⟨_, _, ⟨rfl, rfl⟩, hx⟩, _, y, hy, h⟩ := h
    refine .head .idle ((walk_relaxRows hx).trans ?_)
    split at h
    · simp at h
    · next hl =>
      exact .single (.resolve (fun hn => hl ⟨trivial, hn.2⟩) (returns_bind.mpr ⟨_, y, hy, h⟩))
  · simp only [hr, if_false, returns_bind, returns_pure, false_and] at h
    obtain ⟨_, _, ⟨rfl, rfl⟩, _, y, hy, h⟩ := h
    exact .head (.busy hr) (.single (.resolve (fun hn => hr hn.1)
      (returns_bind.mpr ⟨_, y, hy, h⟩)))

theorem walk_loop {first : Bool} {passes : Nat} {out : Outcome K}
    (h : Returns (loop p (iterate p) passes) s out t) :
    Walk p p.ask (.solved first .optimal, s) (.ended out, t) := by
  induction passes generalizing s first with
  | zero => simp [loop] at h
  | succ passes ih =>
    obtain ⟨b, u, hb, h⟩ := returns_bind.mp h
    cases b with
    | true => exact .single (.finish hb h)
    | false =>
      obtain ⟨st, v, hv, h⟩ := returns_bind.mp h
      refine (walk_iterate hb hv).to_reflTransGen.trans ?_
      split at h
      · exact ih h
      · next hst =>
        simp only [returns_bind, Action.returns_model, returns_get] at h
        obtain ⟨_, _, ⟨rfl, rfl⟩, _, _, ⟨rfl, rfl⟩, _, w, hw, h⟩ := h
        exact .single (.lose hst (returns_bind.mpr ⟨_, w, hw, h⟩))

theorem reached_of_returns [Backend K] {out : Outcome K} (h : Returns (run p) s out t) :
    Reached p p.ask s (.ended out) t := by
  obtain ⟨st, u, hu, h⟩ := returns_bind.mp h
  refine .head (.solve hu) ?_
  split at h
  · exact walk_loop h
  · next hst =>
    simp only [returns_bind, Action.returns_model] at h
    obtain ⟨_, _, ⟨rfl, rfl⟩, _, w, hw, h⟩ := h
    exact .single (.lose hst (returns_bind.mpr ⟨_, w, hw, h⟩))

theorem reached_of_run [Backend K] (hp : p.rounding = .perColumn rule) {out : Outcome K}
    (h : Returns (run p) s out t) : Reached p rule s (.ended out) t :=
  have hrule : p.ask = rule := by simp [Policies.ask, hp]
  hrule ▸ reached_of_returns h

end Engine

end LPRounding
