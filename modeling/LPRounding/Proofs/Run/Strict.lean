import LPRounding.Proofs.Run.Families
import LPRounding.Proofs.Run.Fresh
import LPRounding.Proofs.Run.Generation
import LPRounding.Proofs.SteinerNetwork.Shortfall
import LPRounding.Proofs.SteinerTree.Shortfall

/-!
Row generation with and without a tolerance. Without one, a cut that is found violated has a
violated row, so row generation ends. With one, the residual network may lead to a set whose row the
point meets; the same row is then added for ever.
-/

namespace LPRounding

set_option linter.unusedSectionVars false

variable {K S : Type} [Field K] [LinearOrder K] [IsStrictOrderedRing K] [FloorRing K]

theorem finite_covers {α : Type} (kind : BoundKind) {sides : Set (K × K)} (hs : sides.Finite)
    (xs : List α) : {r : Row K | ∃ b ∈ sides, ∃ test : α → Bool,
      r = cover kind b.1 b.2 (Model.positions test xs)}.Finite := by
  have hrows := (hs.prod (List.finite_toSet (List.range xs.length).sublists)).image
    fun e : (K × K) × List Nat => cover kind e.1.1 e.1.2 e.2
  refine hrows.subset ?_
  rintro r ⟨b, hb, test, rfl⟩
  refine ⟨(b, Model.positions test xs), ⟨hb, ?_⟩, rfl⟩
  have hsub : (Model.positions test xs).Sublist (xs.zipIdx.map Prod.snd) :=
    List.filter_sublist.map _
  rw [List.zipIdx_map_snd] at hsub
  exact List.mem_sublists.mpr (List.range_eq_range' ▸ hsub)

namespace Oracle

variable {P C N : Type} [Dice S K] {h : Home P K S C N} {k : Checker P K C N}
  {tolerance : P → Tolerance K} {family : P → Set (Row K)} {sane : P → Prop} {s t u : Run P K}

/-- Between `s` and `t` the row of a violation was added that had been measured at the point of `s`.
The point violates the row if the magnitude is more than the slack. -/
def Advances (k : Checker P K C N) (tol : Tolerance K) (slack : Violation K C → K) (s t : Run P K) :
    Prop :=
  ∃ v, Reports k tol s.problem s.lp v ∧
    t.lp = { s.lp with rows := s.lp.rows ++ [k.row s.problem v] } ∧
    ∀ x, s.lp.solution = some x → slack v < v.magnitude →
      ¬ (k.row s.problem v).bound.Admits (weigh (k.row s.problem v).coefs x.values)

theorem Generates.advances [Backend K] [Roundable P K] (w : Generates h k tolerance family sane)
    {slack : Violation K C → K} {i : Nat} (hf : Returns Roundable.feasible s false u)
    (hs : Returns Roundable.separate u i t)
    (hslack : ∀ v x, Finds k s.problem s.lp v → s.lp.solution = some x → slack v < v.magnitude →
      ¬ (k.row s.problem v).bound.Admits (weigh (k.row s.problem v).coefs x.values)) :
    Advances k (tolerance s.problem) slack s t := by
  obtain ⟨v, hrep, -, hm⟩ :=
    exists_added w.get_set w.set_set w.row_set (w.feasible ▸ hf) (w.separate ▸ hs)
  exact ⟨v, hrep, hm, fun x hx hlarge => hslack v x hrep.1 hx hlarge⟩

end Oracle

namespace SteinerNetwork

theorem finite_cuts (p : SteinerNetwork K S) : p.cuts.Finite := by
  have hsides : {b : K × K | ∃ pair ∈ p.pairs,
      b = (p.requirements.need pair.1 pair.2, 0)}.Finite := by
    refine (p.pairs.finite_toSet.image fun pair =>
      ((p.requirements.need pair.1 pair.2, 0) : K × K)).subset ?_
    rintro b ⟨pair, hpair, rfl⟩
    exact ⟨pair, hpair, rfl⟩
  refine (finite_covers .lower hsides p.edges).subset ?_
  rintro r ⟨pair, hpair, set, -, -, rfl⟩
  exact ⟨_, ⟨pair, hpair, rfl⟩, _, rfl⟩

structure Strict (p : SteinerNetwork K S) : Prop where
  graph : p.graph.Valid
  edges : p.edges = p.graph.edges
  epsilon : p.tolerance.epsilon = 0

theorem strict_cuts [Backend K] [Dice S K] (hflow : (Backend.flow : FlowFinder Site K).Maximal) :
    Oracle.Cuts (S := S) home checker tolerance cuts Strict where
  feasible := rfl
  separate := rfl
  member hq h := (generates hflow).member hq.epsilon.ge h
  sane_set _ _ := ⟨fun h => ⟨h.1, h.2, h.3⟩, fun h => ⟨h.1, h.2, h.3⟩⟩
  family_set _ _ := rfl
  row_set _ _ _ := rfl
  get_set _ _ := rfl
  set_get _ := rfl
  set_set _ _ _ := rfl
  kept _ _ := rfl
  violated hq hx h := by
    refine not_admits_of_finds hq.graph hq.edges hq.epsilon.ge hflow hx h.1 ?_
    rw [hq.epsilon, zero_mul]
    exact hq.epsilon.ge.trans_lt h.2

end SteinerNetwork

namespace SteinerTree

theorem finite_directedCuts (p : SteinerTree K S) : p.directedCuts.Finite := by
  refine (finite_covers .lower (Set.finite_singleton (1, 0)) p.components).subset ?_
  rintro r ⟨set, -, -, rfl⟩
  exact ⟨_, rfl, _, rfl⟩

/-- A problem whose components lead to terminals and whose tolerance is zero. -/
structure Strict (p : SteinerTree K S) : Prop where
  sinks : ∀ c ∈ p.components, c.sink ∈ p.terminals
  epsilon : p.tolerance.epsilon = 0

theorem strict_cuts [Backend K] [Dice S K] (hflow : (Backend.flow : FlowFinder Site K).Maximal) :
    Oracle.Cuts (S := S) home checker tolerance directedCuts Strict where
  feasible := rfl
  separate := rfl
  member hq h := (generates hflow).member hq.epsilon.ge h
  sane_set _ _ := ⟨fun h => ⟨h.1, h.2⟩, fun h => ⟨h.1, h.2⟩⟩
  family_set _ _ := rfl
  row_set _ _ _ := rfl
  get_set _ _ := rfl
  set_get _ := rfl
  set_set _ _ _ := rfl
  kept _ _ := rfl
  violated hq hx h := by
    refine not_admits_of_finds hq.sinks hq.epsilon.ge hflow hx h.1 ?_
    rw [hq.epsilon, zero_mul]
    exact hq.epsilon.ge.trans_lt h.2

end SteinerTree

/-- At a point that is rejected the row of a violation is added, and the point violates this row
wherever the magnitude is more than the tolerance on each edge of the row, or on each arc of the
components. Without a tolerance it always is: then every row that is added is new, and there are no
more rounds than rows in the family. -/
theorem rounds_make_progress [Backend K] [Dice S K]
    (hflow : (Backend.flow : FlowFinder Site K).Maximal) :
    (∀ (s u t : Run (SteinerNetwork K S) K) (i : Nat), s.problem.graph.Valid →
      s.problem.edges = s.problem.graph.edges → 0 ≤ s.problem.tolerance.epsilon →
      Returns Roundable.feasible s false u → Returns Roundable.separate u i t →
      Oracle.Advances SteinerNetwork.checker s.problem.tolerance (fun v =>
        s.problem.tolerance.epsilon * (s.problem.crossing v.witness).length) s t) ∧
    (∀ (s u t : Run (SteinerTree K S) K) (i : Nat),
      (∀ c ∈ s.problem.components, c.sink ∈ s.problem.terminals) →
      0 ≤ s.problem.tolerance.epsilon → Returns Roundable.feasible s false u →
      Returns Roundable.separate u i t →
      Oracle.Advances SteinerTree.checker s.problem.tolerance (fun _ =>
        s.problem.tolerance.epsilon * s.problem.span) s t) ∧
    ((Backend.solver : Solver K).Sound →
      (∀ (n : Nat) (s t : Run (SteinerNetwork K S) K), s.problem.Strict → s.lp.Solved →
        Rounds n s t → n ≤ s.problem.cuts.ncard ∧
          ∃ rows, t.lp.rows = s.lp.rows ++ rows ∧ rows.length = n ∧ rows.Nodup ∧
            ∀ r ∈ rows, r ∈ s.problem.cuts ∧ r ∉ s.lp.keptRows) ∧
      ∀ (n : Nat) (s t : Run (SteinerTree K S) K), s.problem.Strict → s.lp.Solved →
        Rounds n s t → n ≤ s.problem.directedCuts.ncard ∧
          ∃ rows, t.lp.rows = s.lp.rows ++ rows ∧ rows.length = n ∧ rows.Nodup ∧
            ∀ r ∈ rows, r ∈ s.problem.directedCuts ∧ r ∉ s.lp.keptRows) := by
  refine ⟨fun s u t i hg hp h0 hf hs => ?_, fun s u t i hsinks h0 hf hs => ?_,
    fun hsolver => ⟨fun n s t hs hx h => ?_, fun n s t hs hx h => ?_⟩⟩
  · exact (SteinerNetwork.generates hflow).advances hf hs fun v x hv hx hlarge =>
      SteinerNetwork.not_admits_of_finds hg hp h0 hflow hx hv hlarge
  · exact (SteinerTree.generates hflow).advances hf hs fun v x hv hx hlarge =>
      SteinerTree.not_admits_of_finds hsinks h0 hflow hx hv hlarge
  · have hcuts := SteinerNetwork.strict_cuts (S := S) hflow
    exact ⟨hcuts.rounds_le hsolver hs hx s.problem.finite_cuts h, hcuts.rounds hsolver hs hx h⟩
  · have hcuts := SteinerTree.strict_cuts (S := S) hflow
    exact ⟨hcuts.rounds_le hsolver hs hx s.problem.finite_directedCuts h,
      hcuts.rounds hsolver hs hx h⟩

def cutOnce {P : Type} [Roundable P K] [Backend K] : Action P K (Option Nat) := do
  match ← Action.solveModel with
  | .optimal => if ← Roundable.feasible then return none else return some (← Roundable.separate)
  | _ => return none

theorem returns_cutOnce {P : Type} [Roundable P K] [Backend K] {s t : Run P K} {i : Nat}
    (h : Returns cutOnce s (some i) t) :
    ∃ u v, Returns Action.solveModel s .optimal u ∧ Returns Roundable.feasible u false v ∧
      Returns Roundable.separate v i t := by
  obtain ⟨st, u, hu, h⟩ := returns_bind.mp h
  cases st with
  | optimal =>
    obtain ⟨b, v, hv, h⟩ := returns_bind.mp h
    cases b with
    | true => simp at h
    | false =>
      simp only [Bool.false_eq_true, if_false, returns_bind, returns_pure] at h
      obtain ⟨_, _, hi, heq, rfl⟩ := h
      obtain rfl := Option.some.inj heq
      exact ⟨u, v, hu, hv, hi⟩
  | infeasible | unbounded => simp at h

/-- Without a tolerance the first point of the corner violates the row that is added there. -/
theorem SteinerNetwork.corner_progress :
    let _ : Dice Unit ℚ := Dice.zero
    let _ := provingBackend [([0, 0, 0, 0], {})]
    ∃ (p : SteinerNetwork ℚ Unit) (s u t : Run (SteinerNetwork ℚ Unit) ℚ) (i : Nat)
      (x : Solution ℚ) (v : Violation ℚ (Node × Node)),
      make 0 corner (.ofList cornerNeeds) "cost" [] .first () = .ok p ∧
      Returns Action.solveModel { problem := p, lp := p.model } .optimal s ∧
      Returns Roundable.feasible s false u ∧ Returns Roundable.separate u i t ∧
      s.lp.solution = some x ∧ t.lp.rows = s.lp.rows ++ [p.cutRow v] ∧
      ¬ (p.cutRow v).bound.Admits (weigh (p.cutRow v).coefs x.values) := by
  let _ : Dice Unit ℚ := Dice.zero
  let _ := provingBackend [([0, 0, 0, 0], {})]
  obtain ⟨p, hp, hrun⟩ := exists_ok
    (make 0 corner (.ofList cornerNeeds) "cost" [] .first ())
    (fun p => yields cutOnce { problem := p, lp := p.model } Option.isSome) (by
      rw [make, prune_corner]
      decide +kernel)
  obtain ⟨r, t, h, hr⟩ := exists_returns hrun
  obtain ⟨i, rfl⟩ := Option.isSome_iff_exists.mp hr
  obtain ⟨s, u, hs, hf, ht⟩ := returns_cutOnce h
  obtain ⟨hgraph, hedges, -, -, htol, -⟩ := make_eq_ok hp
  obtain ⟨hproblem, hsolve⟩ := Action.returns_solveModel hs
  obtain rfl : s.problem = p := hproblem
  obtain ⟨x, hx, -⟩ := Model.solved_of_solve (Solver.proving_faithful _ _).sound hsolve
  obtain ⟨v, hrep, hm, hviolated⟩ := (rounds_make_progress (FlowFinder.largest_maximal _)).1 s u t i
    (hgraph ▸ corner_valid) (hedges.trans (congrArg Graph.edges hgraph).symm) htol.ge hf ht
  refine ⟨_, s, u, t, i, x, v, hp, hs, hf, ht, hx, congrArg Model.rows hm, hviolated x hx ?_⟩
  show s.problem.tolerance.epsilon * _ < v.magnitude
  rw [htol, zero_mul]
  exact htol.ge.trans_lt hrep.2

namespace Oracle

variable {P C N : Type} [Dice S K] [Backend K] [Roundable P K] {h : Home P K S C N}
  {k : Checker P K C N} {tolerance : P → Tolerance K} {stuck : P → Model K → Prop} {s : Run P K}

/-- Points that are rejected, and are found again after each row that is added there. -/
structure Stalls (h : Home P K S C N) (k : Checker P K C N) (tolerance : P → Tolerance K)
    (stuck : P → Model K → Prop) : Prop where
  feasible : (Roundable.feasible : Action P K Bool) = Oracle.feasible h k tolerance
  separate : (Roundable.separate : Action P K Nat) = Oracle.separate h k
  prepare : ∀ {q m}, stuck q m → ∃ n cs, k.prepare q m = .ok (n, cs) ∧
    ∀ c ∈ cs, ∃ v, k.check q n c = .ok v
  rejects : ∀ {q m}, stuck q m → ¬ Accepts k (tolerance q) q m
  again : ∀ {q m v}, stuck q m → Reports k (tolerance q) q m v →
    ∃ m', Returns (Model.solve Backend.solver) { m with rows := m.rows ++ [k.row q v] } .optimal
      m' ∧ ∀ o, stuck (h.set q o) m'
  row_set : ∀ q o v, k.row (h.set q o) v = k.row q v
  get_set : ∀ q o, h.get (h.set q o) = o
  set_set : ∀ q o o', h.set (h.set q o) o' = h.set q o'

theorem Stalls.exists_round (w : Stalls h k tolerance stuck) (hs : stuck s.problem s.lp) :
    ∃ t, Round s t ∧ stuck t.problem t.lp := by
  obtain ⟨n, cs, hp, hc⟩ := w.prepare hs
  have hends : Ends (Oracle.feasible h k tolerance) s _ _ := feasible_ends hp hc
  obtain ⟨b, u, hu, -⟩ := hends.exists_returns
  have hb : b = false := by
    cases b with
    | false => rfl
    | true => exact absurd ((returns_feasible hu).2.2 rfl) (w.rejects hs)
  subst hb
  obtain ⟨-, o, v, ho, hv, -⟩ := exists_reported hu
  have hv : (h.get u.problem).violation = some v := by rw [ho, w.get_set, hv]
  obtain ⟨i, x, hx, -⟩ := (separate_ends (k := k) hv).exists_returns
  obtain ⟨v', hrep, ⟨o', ho'⟩, hlp⟩ := exists_added w.get_set w.set_set w.row_set hu hx
  obtain ⟨m', hm', hstuck⟩ := w.again hs hrep
  obtain ⟨st, t, ht, rfl, -⟩ := (solveModel_ends (hlp ▸ hm')).exists_returns
  obtain ⟨hq, hsolved⟩ := Action.returns_solveModel ht
  obtain ⟨-, rfl⟩ := (hlp ▸ hm').unique hsolved
  exact ⟨t, ⟨u, x, i, w.feasible ▸ hu, w.separate ▸ hx, ht⟩, hq ▸ ho' ▸ hstuck o'⟩

theorem Stalls.exists_rounds (w : Stalls h k tolerance stuck) (hs : stuck s.problem s.lp)
    (n : Nat) : ∃ t, Rounds n s t := by
  induction n generalizing s with
  | zero => exact ⟨s, .nil s⟩
  | succ n ih =>
    obtain ⟨t, hround, ht⟩ := w.exists_round hs
    obtain ⟨u, hu⟩ := ih ht
    exact ⟨u, .cons hround hu⟩

end Oracle

namespace SteinerNetwork

/-- A cycle of four vertices, whose edges cost nothing. -/
def square : Graph ℚ where
  kind := .simple
  vertices := [.number 0, .number 1, .number 2, .number 3]
  links := [
    { tail := .number 0, head := .number 1, key := 0, attrs := [("cost", 0)] },
    { tail := .number 0, head := .number 2, key := 0, attrs := [("cost", 0)] },
    { tail := .number 1, head := .number 3, key := 0, attrs := [("cost", 0)] },
    { tail := .number 2, head := .number 3, key := 0, attrs := [("cost", 0)] }]

def squareNeeds : List ((Node × Node) × ℚ) := [((.number 0, .number 3), 1)]

theorem prune_square : (Requirements.ofList squareNeeds).prune square.vertices =
    .ok [(.number 0, .number 3)] :=
  (Requirements.prune_of_sorted (by decide +kernel)).trans rfl

def squareValues : List ℚ := [1 / 2, 1 / 2, 3 / 8, 3 / 8]

@[reducible] noncomputable def squareBackend (passes : Nat) : Backend ℚ where
  solver := .offering [squareValues]
  flow := .largest Augment.finder
  passes := passes

def squareModel {S : Type} (p : SteinerNetwork ℚ S) (rows : List (Row ℚ)) : Model ℚ :=
  { p.model with
    rows := rows
    solution := some ⟨squareValues, p.model.signed (p.model.system.objective squareValues)⟩ }

def Misnamed (p : SteinerNetwork ℚ Unit) (v : Violation ℚ (Node × Node)) : Bool :=
  1 / 8 < v.magnitude && v.side = 1 && p.crossing v.witness = [0, 1]

noncomputable def squareTest (p : SteinerNetwork ℚ Unit) : Bool :=
  let _ := squareBackend 0
  !p.model.columns.isEmpty && decide (p.model.system.Feasible squareValues) &&
    match p.prepare (squareModel p []) with
    | .ok (n, cs) => !cs.isEmpty && cs.all fun c => (p.measure n c).toOption.any (Misnamed p)
    | .error _ => false

variable {p : SteinerNetwork ℚ Unit}

theorem exists_prepared (h : squareTest p = true) (passes : Nat) :
    let _ := squareBackend passes
    p.model.columns ≠ [] ∧ p.model.Admits squareValues ∧
      ∃ n cs, (∀ rows, p.prepare (squareModel p rows) = .ok (n, cs)) ∧ cs ≠ [] ∧
        ∀ c ∈ cs, ∃ v, p.measure n c = .ok v ∧ Misnamed p v = true := by
  simp only [squareTest, Bool.and_eq_true, Bool.not_eq_true', decide_eq_true_eq] at h
  obtain ⟨⟨hcolumns, hfeasible⟩, h⟩ := h
  refine ⟨by simpa using hcolumns, Model.feasible_iff_admits.mp hfeasible, ?_⟩
  split at h
  · next n cs hprep =>
    obtain ⟨hne, h⟩ := Bool.and_eq_true_iff.mp h
    refine ⟨n, cs, fun rows => hprep, by simpa using hne, fun c hc => ?_⟩
    exact exists_ok _ _ (List.all_eq_true.mp h c hc)
  · cases h

theorem admits_of_misnamed {v : Violation ℚ (Node × Node)} (h : Misnamed p v = true) :
    (p.cutRow v).bound.Admits (weigh (p.cutRow v).coefs squareValues) := by
  simp only [Misnamed, Bool.and_eq_true, decide_eq_true_eq] at h
  obtain ⟨⟨-, hside⟩, hcrossing⟩ := h
  rw [cutRow, hside, hcrossing]
  show (1 : ℚ) ≤ weigh [(0, 1), (1, 1)] squareValues
  decide +kernel

theorem solve_square (hc : p.model.columns ≠ []) (hx : p.model.Admits squareValues)
    {rows : List (Row ℚ)} (hrows : ∀ r ∈ rows, r.bound.Admits (weigh r.coefs squareValues))
    (sol : Option (Solution ℚ)) :
    Returns (Model.solve (.offering [squareValues])) { p.model with rows := rows, solution := sol }
      .optimal (squareModel p rows) := by
  let m : Model ℚ := { p.model with rows := rows }
  have hadm : m.Admits squareValues := ⟨hx.length, hx.columns, fun r hr _ => hrows r hr⟩
  have hanswer : Solver.offering [squareValues] m.system =
      .optimal squareValues (m.system.objective squareValues) := by
    have hfind : [squareValues].find? (fun x => m.system.Feasible x) = some squareValues := by
      simp [Model.feasible_iff_admits.mpr hadm]
    simp only [Solver.offering, hfind]
  have hends : Ends (Model.solve (.offering [squareValues]))
      { p.model with rows := rows, solution := sol }
      (fun st m' => st = .optimal ∧ m' = squareModel p rows) fun _ => False := by
    have hne : p.model.columns.isEmpty = false := by simpa using hc
    have hanswer : Solver.offering [squareValues]
        { p.model with rows := rows, solution := none }.system =
          .optimal squareValues (m.system.objective squareValues) := hanswer
    simp only [Model.solve, ends_bind, ends_get, hne, hanswer]
    exact ⟨rfl, rfl⟩
  obtain ⟨_, _, h, rfl, rfl⟩ := hends.exists_returns
  exact h

def Stuck (p : SteinerNetwork ℚ Unit) (q : SteinerNetwork ℚ Unit) (m : Model ℚ) : Prop :=
  (∃ o, q = home.set p o) ∧ ∃ rows, m = squareModel p rows ∧
    ∀ r ∈ rows, r.bound.Admits (weigh r.coefs squareValues)

theorem misnamed_of_reports (h : squareTest p = true) (passes : Nat) {q : SteinerNetwork ℚ Unit}
    {m : Model ℚ} (hs : Stuck p q m) {tol : Tolerance ℚ} {v : Violation ℚ (Node × Node)}
    (hv : let _ := squareBackend passes; Oracle.Reports checker tol q m v) : Misnamed p v = true := by
  let _ := squareBackend passes
  obtain ⟨-, -, n, cs, hprep, -, hall⟩ := exists_prepared h passes
  obtain ⟨⟨o, rfl⟩, rows, rfl, -⟩ := hs
  obtain ⟨⟨n', cs', hprep', c, hc, hv⟩, -⟩ := hv
  obtain ⟨rfl, rfl⟩ := Prod.mk.inj (Except.ok.inj (hprep'.symm.trans (hprep rows)))
  obtain ⟨w, hw, hbad⟩ := hall c hc
  obtain rfl := Except.ok.inj (hw.symm.trans hv)
  exact hbad

theorem square_stalls (h : squareTest p = true) (hε : p.tolerance.epsilon = 1 / 8) (passes : Nat) :
    let _ := squareBackend passes
    let _ : Dice Unit ℚ := Dice.zero
    Oracle.Stalls (S := Unit) home checker tolerance (Stuck p) := by
  intro _ _
  obtain ⟨hc, hx, n, cs, hprep, hne, hall⟩ := exists_prepared h passes
  have hprepare {q : SteinerNetwork ℚ Unit} {m : Model ℚ} (hs : Stuck p q m) :
      q.prepare m = .ok (n, cs) ∧ (∀ c, q.measure n c = p.measure n c) ∧
        q.tolerance.epsilon = 1 / 8 := by
    obtain ⟨⟨o, rfl⟩, rows, rfl, -⟩ := hs
    exact ⟨hprep rows, fun _ => rfl, hε⟩
  refine ⟨rfl, rfl, fun hs => ?_, fun hs ha => ?_, fun {q m v} hs hrep => ?_, fun _ _ _ => rfl,
    fun _ _ => rfl, fun _ _ _ => rfl⟩
  · obtain ⟨hprep, hmeasure, -⟩ := hprepare hs
    refine ⟨n, cs, hprep, fun c hc => ?_⟩
    obtain ⟨v, hv, -⟩ := hall c hc
    exact ⟨v, (hmeasure c).trans hv⟩
  · -- no candidate is clear at the point
    obtain ⟨hprep, hmeasure, htol⟩ := hprepare hs
    obtain ⟨n', cs', hprep', hclear⟩ := ha
    obtain ⟨rfl, rfl⟩ := Prod.mk.inj (Except.ok.inj (hprep'.symm.trans hprep))
    obtain ⟨c, hc⟩ := List.exists_mem_of_ne_nil _ hne
    obtain ⟨v, hv, hbad⟩ := hall c hc
    obtain ⟨w, hw, hle⟩ := hclear c hc
    obtain rfl := Except.ok.inj (((hmeasure c).trans hv).symm.trans hw)
    simp only [Misnamed, Bool.and_eq_true, decide_eq_true_eq] at hbad
    exact absurd (hle.trans_eq htol) (not_le.mpr hbad.1.1)
  · -- the row that is added is met at the point, so the next solve finds the same one
    have hbad := misnamed_of_reports h passes hs hrep
    obtain ⟨⟨o, rfl⟩, rows, rfl, hrows⟩ := hs
    have hrows : ∀ r ∈ rows ++ [p.cutRow v], r.bound.Admits (weigh r.coefs squareValues) := by
      intro r hr
      rcases List.mem_append.mp hr with hr | hr
      · exact hrows r hr
      · rw [List.mem_singleton.mp hr]
        exact admits_of_misnamed hbad
    exact ⟨_, solve_square hc hx hrows _, fun o' => ⟨⟨o', rfl⟩, _, rfl, hrows⟩⟩

/-- With a tolerance of an eighth the point is rejected for the row of the first vertex, which it
meets; this row is added over and over again, however many passes are allowed. -/
theorem square_never_ends :
    let _ : Dice Unit ℚ := Dice.zero
    ∃ p : SteinerNetwork ℚ Unit,
      make (1 / 8) square (.ofList squareNeeds) "cost" [] .first () = .ok p ∧
      ∀ passes, let _ := squareBackend passes
        (∃ (s u t : Run (SteinerNetwork ℚ Unit) ℚ) (i : Nat) (x : Solution ℚ) (r : Row ℚ),
          Returns Action.solveModel { problem := p, lp := p.model } .optimal s ∧
          s.lp.solution = some x ∧ Returns Roundable.feasible s false u ∧
          Returns Roundable.separate u i t ∧ t.lp.rows = s.lp.rows ++ [r] ∧
          r.bound.Admits (weigh r.coefs x.values)) ∧
        ∃ t, SolveRule.generating.apply { problem := p, lp := p.model } = .error .unfinished t := by
  intro _
  obtain ⟨p, hp, htest⟩ := exists_ok
    (make (1 / 8) square (.ofList squareNeeds) "cost" [] .first ()) squareTest (by
      rw [make, prune_square]
      decide +kernel)
  obtain ⟨-, -, -, -, htol, -⟩ := make_eq_ok hp
  refine ⟨p, hp, fun passes => ?_⟩
  intro _
  obtain ⟨hc, hx, -⟩ := exists_prepared htest passes
  have hsolve : Returns (Model.solve Backend.solver) p.model .optimal (squareModel p []) :=
    solve_square hc hx (by simp) none
  obtain ⟨_, s, hs, rfl, -⟩ :=
    (Oracle.solveModel_ends (s := { problem := p, lp := p.model }) hsolve).exists_returns
  obtain ⟨hq, hm⟩ := Action.returns_solveModel hs
  obtain ⟨-, hm⟩ := hsolve.unique hm
  have hstuck : Stuck p s.problem s.lp := ⟨⟨p.oracle, hq⟩, [], hm.symm, by simp⟩
  have hstalls := square_stalls htest htol passes
  obtain ⟨t, ht⟩ := unfinished_of_rounds (hstalls.exists_rounds hstuck) passes
  obtain ⟨_, ⟨u, v, i, hf, hadded, -⟩, -⟩ := hstalls.exists_round hstuck
  obtain ⟨w, hrep, -, hrow⟩ :=
    Oracle.exists_added hstalls.get_set hstalls.set_set hstalls.row_set hf hadded
  refine ⟨⟨s, u, v, i, _, p.cutRow w, hs, congrArg Model.solution hm.symm, hf, hadded, ?_,
    admits_of_misnamed (misnamed_of_reports htest passes hstuck hrep)⟩, t,
    (hs.bind_apply _).trans ht⟩
  rw [hrow, hq]
  rfl

end SteinerNetwork

end LPRounding
