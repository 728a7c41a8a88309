import LPRounding.Proofs.Graph.Crossing
import LPRounding.Proofs.Run.Stuck
import LPRounding.Proofs.SteinerNetwork.Cost

/-!
Steiner networks: no run is stuck. Were every open column of a vertex strictly between zero and a
half, then some change of the open columns would go unnoticed by all cuts that have no slack, and the
point would be no vertex; for the open columns across such a cut make up a whole number, as do those
that were closed and the requirement itself.
-/

namespace LPRounding.SteinerNetwork

set_option linter.unusedSectionVars false

variable {K S : Type} [Field K] [LinearOrder K] [IsStrictOrderedRing K] [FloorRing K]
  {p q : SteinerNetwork K S} {m : Model K} {x : List K}

def tail (p : SteinerNetwork K S) (j : Nat) : Node :=
  match p.edges[j]? with
  | some e => e.name.u
  | none => default

def head (p : SteinerNetwork K S) (j : Nat) : Node :=
  match p.edges[j]? with
  | some e => e.name.v
  | none => default

def flux (p : SteinerNetwork K S) (d : Nat → K) (set : Finset Node) : K :=
  crossed (Finset.range p.edges.length) p.tail p.head d set

theorem weights_crossing (p : SteinerNetwork K S) (set : List Node) (d : Nat → K) :
    weights ((p.crossing set).map fun j => (j, 1)) d = p.flux d set.toFinset := by
  have hcolumns : (p.crossing set).toFinset = (Finset.range p.edges.length).filter fun j =>
      Crosses set.toFinset (p.tail j) (p.head j) := by
    ext j
    rw [List.mem_toFinset, crossing, Model.mem_positions, Finset.mem_filter, Finset.mem_range]
    by_cases hj : j < p.edges.length
    · simp [hj, tail, head, Crosses]
    · simp [hj]
  rw [weights_ones (p.crossing set) (Model.nodup_positions _ _), hcolumns, flux, crossed]

theorem across_valued (p : SteinerNetwork K S) (x : List K) (set : Finset Node) :
    across set (p.valued x) = p.flux (x.getD · 0) set := by
  rw [← Finset.toList_toFinset set, ← weigh_crossing, weigh_eq_weights, weights_crossing]

theorem covers (h : p.requirements.Suffices fun set => across set (p.valued x))
    (h0 : ∀ j, 0 ≤ x.getD j 0) : Covers p.requirements.need (Finset.range p.edges.length) p.tail p.head
      (x.getD · 0) := by
  intro set u v huv
  have hle := h.need_le (across_nonneg h0 set) (u := u) (v := v) (by simpa [Crosses] using huv)
  rwa [across_valued] at hle

theorem Kept.eq_zero_of_unfelt (h : Kept p q m) (hv : m.system.Vertex x) (hdrawn : m.Drawn 0 p.cuts)
    (hopen : ∀ j ∈ m.activeColumns, 0 < x.getD j 0 ∧ x.getD j 0 < 1) {d : Nat → K}
    (hd : ∀ j ∉ m.activeColumns, d j = 0)
    (hsets : ∀ pair ∈ p.pairs, ∀ set : Finset Node, Crosses set pair.1 pair.2 →
      p.flux (x.getD · 0) set = p.requirements.need pair.1 pair.2 → p.flux d set = 0) : d = 0 := by
  have hx := Model.feasible_iff_admits.mp hv.feasible
  refine h.ledger.eq_zero_of_vertex (b := { kind := .double, lo := 0, hi := 1 })
    (by simp [model, column]) hv (fun j hj => ?_) hd fun r hr hk => ?_
  · simpa [Bound.Inside, Bound.floor?, Bound.ceiling?] using hopen j hj
  · obtain ⟨_, ⟨pair, hpair, set, hnear, hfar, rfl⟩, hbound, hcoefs⟩ := hdrawn.of_mem hr
    have hmet := hx.rows r hr hk
    rw [hbound, hcoefs, weigh_eq_weights] at hmet
    rw [hbound, hcoefs, weigh_eq_weights]
    simp only [cover, weights_crossing] at hmet ⊢
    have hmet : p.requirements.need pair.1 pair.2 ≤ p.flux (x.getD · 0) set.toFinset := hmet
    rcases hmet.lt_or_eq with hslack | htight
    · left
      simpa [Bound.Inside, Bound.floor?, Bound.ceiling?] using hslack
    · right
      exact hsets pair hpair set.toFinset (by simp [Crosses, hnear, hfar]) htight.symm

/-- At a vertex that covers every set some open column can be rounded. -/
theorem Kept.exists_move (h : Kept p q m) (hw : p.Whole) (hε : 0 < p.tolerance.epsilon)
    {s : Solution K} (hs : m.solution = some s) (hv : m.system.Vertex s.values)
    (hsuffices : p.requirements.Suffices fun set => across set (p.valued s.values))
    (hdrawn : m.Drawn 0 p.cuts) (ho : m.activeColumns ≠ []) :
    ∃ c ∈ m.activeColumns, ∃ x, m.columnValue c = .ok x ∧
      (x < p.tolerance.epsilon ∨ 1 / 2 - p.tolerance.epsilon ≤ x) := by
  have hx := Model.feasible_iff_admits.mp hv.feasible
  by_contra hno
  have hbetween : ∀ j ∈ m.activeColumns, 0 < s.values.getD j 0 ∧ s.values.getD j 0 < 1 / 2 :=
    fun j hj => m.below_half_of_far hs hx.length hε hno hj
  have hsome : m.activeColumns.toFinset.Nonempty := List.toFinset_nonempty_iff _ |>.mpr ho
  have hsub : m.activeColumns.toFinset ⊆ Finset.range p.edges.length := by
    intro j hj
    have hlt := (Model.mem_activeColumns_iff.mp (List.mem_toFinset.mp hj)).1
    exact Finset.mem_range.mpr (h.length_columns ▸ hlt)
  have hclosed : ∀ j ∈ Finset.range p.edges.length, j ∉ m.activeColumns.toFinset →
      s.values.getD j 0 = 0 ∨ s.values.getD j 0 = 1 := fun j hj hno =>
    (h.ledger.closed_column hx (h.length_columns ▸ Finset.mem_range.mp hj)
      (List.mem_toFinset.not.mp hno)).imp And.right And.right
  -- the rows part only these vertices, however many sets they are about
  let ends := (p.pairs.map Prod.fst ++ p.pairs.map Prod.snd).toFinset
  obtain ⟨d, hne, hd, hsets⟩ := exists_unfelt hsome hsub
    (covers hsuffices fun j => (h.range hx j).1) hw
    (fun j hj => hbetween j (List.mem_toFinset.mp hj)) hclosed ends
  refine hne (h.eq_zero_of_unfelt hv hdrawn (fun j hj => ?_)
    (fun j hj => hd j (List.mem_toFinset.not.mpr hj)) fun pair hpair set hset heq => ?_)
  · exact ⟨(hbetween j hj).1, (hbetween j hj).2.trans one_half_lt_one⟩
  · refine hsets set pair.1 ?_ pair.2 ?_ hset heq
    · exact List.mem_toFinset.mpr (List.mem_append_left _ (List.mem_map_of_mem hpair))
    · exact List.mem_toFinset.mpr (List.mem_append_right _ (List.mem_map_of_mem hpair))

section Runs

variable [Backend K] [Dice S K]

theorem mild_point (p : SteinerNetwork K S) (m : Model K) : Mild (p.point m) :=
  Mild.mapM (fun _ => (m.mild_columnValue _).bind fun _ => .ok _) _

theorem mild_measure (p : SteinerNetwork K S) (n : Network Site K) (pair : Node × Node) :
    Mild (p.measure n pair) :=
  Network.mild_siteCut.bind fun _ => .ok _

theorem gentle : (checker (K := K) (S := S)).Gentle where
  prepare p m := (p.mild_point m).bind fun _ => .ok _
  check p n pair := p.mild_measure n pair

theorem mild_firstUnmet (p : SteinerNetwork K S) (n : Network Site K) (pairs : List (Node × Node)) :
    Mild (p.firstUnmet n pairs) := by
  induction pairs with
  | nil => exact .ok _
  | cons pair rest ih =>
    refine (p.mild_measure n pair).bind fun v => ?_
    split
    · exact .ok _
    · exact ih

theorem mute_check : Mute (check (K := K) (S := S)) := by
  refine Mute.problem.bind fun p => ?_
  split
  · exact .pure _
  · refine (Mute.lift (p.mild_firstUnmet _ _)).bind fun unmet => ?_
    split
    · exact .pure _
    · exact (Mute.note _).bind fun _ => .pure _

theorem mute_commit (j : Nat) : Mute (commit (K := K) (S := S) j) := by
  refine Mute.problem.bind fun p => ?_
  split
  · exact .throw id
  · exact .modify _

theorem mute_policies : (policies : Policies (SteinerNetwork K S) K).Mute :=
  have hsolve : Mute (SolveRule.generating.apply (P := SteinerNetwork K S) (K := K)) :=
    Action.mute_solveModel.bind fun st =>
      mute_generateRows (Oracle.mute_feasible gentle) Oracle.mute_separate _ st
  { ask := RoundRule.mute_commitHalf mute_commit
    relax := fun _ => .pure _
    setSolution := .pure _
    solve := hsolve
    resolve := hsolve
    stop := Mute.model.bind fun _ => .pure _ }

theorem exists_move_of_reached {entries : List Choice}
    (hsolver : (Backend.solver : Solver K).Extreme)
    (hflow : (Backend.flow : FlowFinder Site K).Maximal) (hw : p.Whole)
    (hε : 0 < p.tolerance.epsilon) (hsink : p.sink = .ofList entries)
    (hlands : Engine.Lands policies p.start fun x =>
      p.requirements.Suffices fun set => across set (p.valued x)) {first : Bool}
    {t : Run (SteinerNetwork K S) K}
    (h : Engine.Reached policies policies.ask p.start (.solved first .optimal) t)
    (ho : t.lp.activeColumns ≠ []) :
    ∃ c ∈ t.lp.activeColumns, ∃ x, t.lp.columnValue c = .ok x ∧
      (x < p.tolerance.epsilon ∨ 1 / 2 - p.tolerance.epsilon ≤ x) := by
  have hrestrained := policies_committing (K := K) (S := S).restrained tidy
  have hkept := (settled_of_solved hsolver.sound hsink h).1
  obtain ⟨s, hs, hv⟩ := h.establishes (Model.vertex_of_solve hsolver)
    (fun h => (tidy.feasible h).1) policies_committing.standard
  have hdrawn : t.lp.Drawn 0 p.cuts := by
    refine h.drawn hrestrained (fun {a first st u} hwalk hstep => ?_) (subset_refl p.cuts)
      fun i r _ hr => by cases hr
    obtain ⟨sink, oracle, hq⟩ := (kept_of_step hsolver.sound hsink hwalk hstep).same
    have hfamily : cuts a.2.problem = p.cuts := by rw [hq]; rfl
    refine hfamily ▸ (generates hflow).extended rfl rfl ?_ hstep
    rw [hq]
    exact hε.le
  exact hkept.exists_move hw hε hs hv (hlands h hs) hdrawn ho

theorem Kept.not_vain {t : Run (SteinerNetwork K S) K} (h : Kept p t.problem t.lp)
    (hsolved : t.lp.Solved) {c : Nat} (hc : c ∈ t.lp.activeColumns) {x : K}
    (hx : t.lp.columnValue c = .ok x)
    (hnear : x < p.tolerance.epsilon ∨ 1 / 2 - p.tolerance.epsilon ≤ x) :
    ¬ Engine.Vain policies t := by
  rintro ⟨hcolumns, -⟩
  obtain ⟨s, hs, hadmits⟩ := hsolved
  obtain ⟨sink, oracle, hq⟩ := h.same
  obtain ⟨u, w, ⟨hproblem, hlp⟩, hr⟩ := hcolumns c hc
  have h0 : 0 ≤ x := Model.eq_getD_of_columnValue hs hx ▸ (h.range hadmits c).1
  have hfar := RoundRule.far_of_commitHalf_none hr (hlp ▸ hx) h0
  rw [hproblem, hq] at hfar
  exact hfar hnear

/-- No run is stuck, whatever the whole requirements are and even if columns are fixed next to their
values, where the solver ends at vertices and every accepted point gives each set what the pairs
require that it parts: as long as a column is open some open column is next to zero, or at a half or
more. -/
theorem network_never_stuck {ε : K} {g : Graph K} {required : List ((Node × Node) × K)}
    {costName : String} {entries : List Choice} {strategy : Strategy} {dice : S}
    (hmake : make ε g (.ofList required) costName entries strategy dice = .ok p) (hε : 0 < ε)
    (hwhole : ∀ e ∈ required, ∃ k : ℤ, e.2 = k) (hsolver : (Backend.solver : Solver K).Extreme)
    (hflow : (Backend.flow : FlowFinder Site K).Maximal)
    (hlands : Engine.Lands policies p.start fun x =>
      (Requirements.ofList required).Suffices fun set => across set (p.valued x)) :
    (∀ first t, Engine.Reached policies policies.ask p.start (.solved first .optimal) t →
      t.lp.activeColumns ≠ [] →
      ∃ c ∈ t.lp.activeColumns, ∃ x, t.lp.columnValue c = .ok x ∧ (x < ε ∨ 1 / 2 - ε ≤ x)) ∧
    ∀ e t, Engine.solveProblem policies { problem := p } = .error e t →
      ∀ iteration model columns rows, e ≠ .stuck iteration model columns rows := by
  obtain ⟨-, -, hreq, -, htol, -, hsink⟩ := make_eq_ok hmake
  subst htol
  have hw : p.Whole := fun u v => hreq ▸ Requirements.whole_need hwhole u v
  have hmoves {first : Bool} {t : Run (SteinerNetwork K S) K}
      (h : Engine.Reached policies policies.ask p.start (.solved first .optimal) t)
      (ho : t.lp.activeColumns ≠ []) :=
    exists_move_of_reached hsolver hflow hw hε hsink (hreq ▸ hlands) h ho
  refine ⟨fun first t h ho => hmoves h ho, fun e t h => ?_⟩
  have hstuck : ¬ e.IsStuck := by
    refine Engine.not_isStuck_of_solveProblem mute_check
      (Mute.problem.bind fun _ => .modify _) (fun hc hi hf => ?_) h
    obtain rfl := returns_check hc
    simp only [policies, build, returns_bind, Action.returns_problem, Action.returns_setModel] at hi
    obtain ⟨_, _, ⟨rfl, rfl⟩, rfl⟩ := hi
    refine Engine.not_isStuck_of_run (policies_committing.restrained tidy) mute_policies
      (policies_keeps p hsolver.sound) rfl rfl (fun hreach hopen hvain => ?_) hf
    obtain ⟨hkept, hsolved, -⟩ := settled_of_solved hsolver.sound hsink hreach
    obtain ⟨c, hc, x, hx, hnear⟩ := hmoves hreach hopen
    exact hkept.not_vain hsolved hc hx hnear hvain
  rintro n model columns rows rfl
  exact hstuck trivial

end Runs

@[reducible] noncomputable def corneredBackend (points : List (List ℚ × Prices ℚ)) : Backend ℚ :=
  { provingBackend points with solver := (Solver.proving points []).cornered }

theorem corner_never_stuck :
    let _ := corneredBackend [([0, 0, 0, 0], {}), ([1, 1, 0, 0], { atMost := [1] }),
      ([1, 0, 1, 0], { atMost := [1, 0] }), ([1, 1, 1, 0], { atMost := [0, 1, 1] }),
      ([1, 1, 1, 0], {})]
    let _ : Dice Unit ℚ := Dice.zero
    ∃ (p : SteinerNetwork ℚ Unit) (out : Outcome ℚ) (t : Run (SteinerNetwork ℚ Unit) ℚ),
      make (1 / 10) corner (.ofList cornerNeeds) "cost" [] .first () = .ok p ∧
      Returns (Engine.solveProblem policies) { problem := p } out t ∧ out.status = .optimal ∧
      ∀ first t, Engine.Reached policies policies.ask p.start (.solved first .optimal) t →
        t.lp.activeColumns ≠ [] → ∃ c ∈ t.lp.activeColumns, ∃ x, t.lp.columnValue c = .ok x ∧
          (x < 1 / 10 ∨ 1 / 2 - 1 / 10 ≤ x) := by
  let points : List (List ℚ × Prices ℚ) :=
    [([0, 0, 0, 0], {}), ([1, 1, 0, 0], { atMost := [1] }), ([1, 0, 1, 0], { atMost := [1, 0] }),
      ([1, 1, 1, 0], { atMost := [0, 1, 1] }), ([1, 1, 1, 0], {})]
  let _ := corneredBackend points
  let _ : Dice Unit ℚ := Dice.zero
  obtain ⟨p, hp, hrun⟩ := exists_ok
    (make (1 / 10) corner (.ofList cornerNeeds) "cost" [] .first ()) (solves policies) (by
      rw [make, prune_corner]
      decide +kernel)
  obtain ⟨out, t, h, ho⟩ := exists_answer hrun
  have hsolver : (Backend.solver : Solver ℚ).Extreme :=
    (Solver.proving_faithful _ _).sound.extreme_cornered
  have hflow : (Backend.flow : FlowFinder Site ℚ).Maximal := FlowFinder.largest_maximal _
  have hwhole : ∀ e ∈ cornerNeeds, ∃ k : ℤ, e.2 = k := by decide +kernel
  have hbinary : Engine.Lands policies p.start fun x => ∀ v ∈ x, v = 0 ∨ v = 1 := by
    refine Engine.lands_of_solver _ policies_committing.standard (fun h => (tidy.feasible h).1)
      (fun s x c hx => ?_) (by simp)
    have hpoints : ∀ x ∈ points.map Prod.fst, ∀ v ∈ x, v = 0 ∨ v = 1 := by decide +kernel
    exact hpoints x (Solver.mem_of_proving (Solver.of_cornered hx).1)
  refine ⟨p, out, t, hp, h, ho, (network_never_stuck hp (by norm_num) hwhole hsolver hflow ?_).1⟩
  exact suffices_of_binary corner_valid hp (by norm_num) hwhole hsolver.sound hflow.sound hbinary

end LPRounding.SteinerNetwork
