import LPRounding.Proofs.Graph.Uncrossing
import LPRounding.Proofs.Run.Stuck
import LPRounding.Proofs.BoundedTree.Cost

/-!
Spanning trees with degree bounds: no run is stuck. Were every open column of a vertex strictly
between zero and one, and the open columns at every vertex with a kept row too many for its bound,
then some change of the open columns would go unnoticed by all rows that have no slack, and the point
would be no vertex.
-/

namespace LPRounding.BoundedTree

set_option linter.unusedSectionVars false

variable {K S : Type} [Field K] [LinearOrder K] [IsStrictOrderedRing K] [FloorRing K]
  {p q : BoundedTree K S} {m : Model K} {x : List K} {v : Node}

def tail (p : BoundedTree K S) (j : Nat) : Node :=
  match p.edges[j]? with
  | some e => e.name.u
  | none => default

def head (p : BoundedTree K S) (j : Nat) : Node :=
  match p.edges[j]? with
  | some e => e.name.v
  | none => default

theorem toFinset_within (p : BoundedTree K S) (set : List Node) : (p.within set).toFinset =
    (Finset.range p.edges.length).filter fun j => p.tail j ∈ set.toFinset ∧ p.head j ∈ set.toFinset := by
  ext j
  rw [List.mem_toFinset, within, Model.mem_positions, Finset.mem_filter, Finset.mem_range]
  by_cases hj : j < p.edges.length
  · simp [hj, tail, head]
  · simp [hj]

theorem toFinset_incident (p : BoundedTree K S) (v : Node) : (p.incident v).toFinset =
    (Finset.range p.edges.length).filter fun j => p.tail j = v ∨ p.head j = v := by
  ext j
  rw [List.mem_toFinset, incident, Model.mem_positions, Finset.mem_filter, Finset.mem_range]
  by_cases hj : j < p.edges.length
  · simp [hj, tail, head]
  · simp [hj]

theorem weights_within (p : BoundedTree K S) (set : List Node) (d : Nat → K) :
    weights ((p.within set).map fun j => (j, 1)) d =
      held (Finset.range p.edges.length) p.tail p.head d set.toFinset := by
  rw [weights_ones (p.within set) (Model.nodup_positions _ _), toFinset_within, held]

theorem weights_incident (p : BoundedTree K S) (v : Node) (d : Nat → K) :
    weights ((p.incident v).map fun j => (j, 1)) d =
      ∑ j ∈ Finset.range p.edges.length with p.tail j = v ∨ p.head j = v, d j := by
  rw [weights_ones (p.incident v) (Model.nodup_positions _ _), toFinset_incident]

theorem Sane.ends (hp : p.Sane) {j : Nat} (hj : j < p.edges.length) :
    p.edges[j].name.u ∈ p.graph.vertices ∧ p.edges[j].name.v ∈ p.graph.vertices := by
  refine hp.graph.edge_ends ?_
  rw [← hp.edges]
  exact List.getElem_mem hj

theorem Sane.weights_all (hp : p.Sane) (d : Nat → K) :
    weights ((List.range p.edges.length).map fun j => (j, 1)) d =
      held (Finset.range p.edges.length) p.tail p.head d p.graph.vertices.toFinset := by
  rw [weights_ones _ List.nodup_range, List.toFinset_range, held, Finset.filter_true_of_mem]
  intro j hj
  have hj := Finset.mem_range.mp hj
  have hends := hp.ends hj
  simpa [tail, head, hj] using hends

theorem weight_eq_held (p : BoundedTree K S) (x : List K) (set : Finset Node) :
    weight (p.entries x) set =
      held (Finset.range p.edges.length) p.tail p.head (x.getD · 0) set := by
  rw [← Finset.toList_toFinset set, ← weigh_within, weigh_eq_weights, weights_within]

theorem Sparse.forestlike (h : p.Sparse x) : Forestlike (Finset.range p.edges.length) p.tail p.head
    (x.getD · 0) p.graph.vertices.toFinset := by
  intro set hsub hne
  rw [← weight_eq_held]
  exact h set hsub hne

theorem Kept.closed_column (h : Kept p q m) (hx : m.Admits x) {j : Nat} (hj : j < p.edges.length)
    (hno : j ∉ m.activeColumns) :
    (m.fixedAt j = some 0 ∧ x.getD j 0 = 0) ∨ (m.fixedAt j = some 1 ∧ x.getD j 0 = 1) :=
  h.ledger.closed_column hx (h.length_eq ▸ hj) hno

theorem Kept.range (h : Kept p q m) (hx : m.Admits x) (j : Nat) :
    0 ≤ x.getD j 0 ∧ x.getD j 0 ≤ 1 :=
  h.ledger.range (by simp [model, column]) hx j

theorem Kept.total (h : Kept p q m) (hx : m.Admits x) :
    weights ((List.range p.edges.length).map fun j => (j, 1)) (x.getD · 0) =
      (p.graph.vertices.length : K) - 1 := by
  obtain ⟨r, hr, hk⟩ := h.first_kept
  have hmet := h.ledger.grown.met hx (show p.model.rows[0]? = some p.sizeRow from rfl) hr hk
  rw [weigh_eq_weights] at hmet
  have hmet : weights ((List.range p.edges.length).map fun j => (j, 1)) (x.getD · 0) =
      Scalar.ofInt ((p.graph.vertices.length : ℤ) - 1) := hmet
  rw [hmet, Scalar.ofInt_eq]
  push_cast
  rfl

theorem Kept.degree_committed (h : Kept p q m) (hx : m.Admits x) (hsparse : p.Sparse x)
    (hv : v ∈ p.graph.vertices) :
    degree q.committed v = (p.incident v).countP fun j => m.fixedAt j = some 1 := by
  have hloops : (q.committed.countP fun e => e.1 = v && e.2 = v) = 0 := by
    rw [h.committed, h.ledger.countP_ends, Model.positions_map, List.countP_eq_zero]
    intro j hj hone
    obtain ⟨e, he, hloop⟩ := Model.mem_positions.mp hj
    simp only [Bool.and_eq_true, decide_eq_true_eq] at hloop hone
    have hlt := (List.getElem?_eq_some_iff.mp he).1
    have htail : p.tail j = v := by simp [tail, he, hloop.1]
    have hhead : p.head j = v := by simp [head, he, hloop.2]
    have hle := hsparse.forestlike.loop_le (fun i _ => (h.range hx i).1) (Finset.mem_range.mpr hlt)
      (by rw [htail]; exact List.mem_toFinset.mpr hv) (hhead.trans htail.symm)
    have hclosed : j ∉ m.activeColumns := by
      intro hopen
      cases hone.symm.trans (Model.mem_activeColumns_iff.mp hopen).2
    rcases h.closed_column hx hlt hclosed with ⟨hzero, -⟩ | ⟨-, hvalue⟩
    · rw [hone] at hzero
      exact one_ne_zero (Option.some.inj hzero)
    · rw [hvalue] at hle
      exact absurd hle (not_le.mpr zero_lt_one)
  rw [degree_eq, hloops, h.committed, h.countP_incident]
  rfl

theorem Kept.sum_lacking (h : Kept p q m) (hx : m.Admits x) (v : Node) :
    ∑ j ∈ m.activeColumns.toFinset with p.tail j = v ∨ p.head j = v, (1 - x.getD j 0) =
      ((p.incident v).countP fun j => m.fixedAt j = none : ℕ) +
        ((p.incident v).countP fun j => m.fixedAt j = some 1 : ℕ) -
      weights ((p.incident v).map fun j => (j, 1)) (x.getD · 0) := by
  have hnodup : (p.incident v).Nodup := Model.nodup_positions _ _
  have hopen : (m.activeColumns.toFinset.filter fun j => p.tail j = v ∨ p.head j = v) =
      (p.incident v).toFinset.filter (· ∈ m.activeColumns) := by
    ext j
    rw [toFinset_incident, Finset.mem_filter, Finset.mem_filter, Finset.mem_filter,
      List.mem_toFinset, Finset.mem_range, h.length_eq, Model.mem_activeColumns_iff]
    tauto
  have hcount (test : Nat → Bool) : ((p.incident v).countP test : K) =
      ∑ j ∈ (p.incident v).toFinset, if test j then 1 else 0 := by
    rw [cast_countP, List.sum_toFinset _ hnodup]
  rw [weights_ones _ hnodup, hcount, hcount, ← Finset.sum_add_distrib, ← Finset.sum_sub_distrib,
    hopen, Finset.sum_filter]
  refine Finset.sum_congr rfl fun j hj => ?_
  have hlt : j < p.edges.length := by
    rw [toFinset_incident] at hj
    exact Finset.mem_range.mp (Finset.mem_filter.mp hj).1
  by_cases hj : j ∈ m.activeColumns
  · simp [hj, (Model.mem_activeColumns_iff.mp hj).2]
  · rcases h.closed_column hx hlt hj with ⟨hf, hvalue⟩ | ⟨hf, hvalue⟩
    · rw [if_neg hj, hvalue]
      simp [hf]
    · rw [if_neg hj, hvalue]
      simp [hf]

/-- Where the columns of a kept row and the edges that were taken exceed the bound by two, two or
more is left over of the open columns. -/
theorem Kept.left_over (h : Kept p q m) (hx : m.Admits x) (hsparse : p.Sparse x)
    (hv : v ∈ p.graph.vertices) {i d : Nat} (hrow : i ∈ m.activeRows)
    (hvertex : p.rowVertex i = some v) (hd : m.rowDegree i = .ok d)
    (hmany : (p.bound? v).getD 0 + 1 < ((d + degree q.committed v : ℕ) : ℤ)) :
    2 ≤ ∑ j ∈ m.activeColumns.toFinset with p.tail j = v ∨ p.head j = v, (1 - x.getD j 0) := by
  obtain ⟨r, hr, hk⟩ := Model.mem_activeRows.mp hrow
  have hmet := h.ledger.grown.met hx (rowVertex_eq_some hvertex) hr hk
  rw [weigh_eq_weights] at hmet
  have hmet : weights ((p.incident v).map fun j => (j, 1)) (x.getD · 0) ≤
      Scalar.ofInt ((p.bound? v).getD 0) := hmet
  rw [Scalar.ofInt_eq] at hmet
  rw [h.rowDegree_eq hvertex hd, h.degree_committed hx hsparse hv] at hmany
  have hmany : (p.bound? v).getD 0 + 2 ≤ (((p.incident v).countP fun j => m.fixedAt j = none) +
      ((p.incident v).countP fun j => m.fixedAt j = some 1) : ℤ) := by
    push_cast at hmany
    omega
  have hmany : ((p.bound? v).getD 0 : K) + 2 ≤
      ((p.incident v).countP fun j => m.fixedAt j = none : ℕ) +
        ((p.incident v).countP fun j => m.fixedAt j = some 1 : ℕ) := by
    exact_mod_cast hmany
  rw [h.sum_lacking hx]
  linarith

theorem Kept.weights_incident_eq (h : Kept p q m) {d : Nat → K} (hd : ∀ j ∉ m.activeColumns, d j = 0)
    (v : Node) : weights ((p.incident v).map fun j => (j, 1)) d =
      ∑ j ∈ m.activeColumns.toFinset with p.tail j = v ∨ p.head j = v, d j := by
  rw [weights_incident]
  refine (Finset.sum_subset (fun j hj => ?_) fun j hj hno => hd j fun hopen => hno ?_).symm
  · obtain ⟨hj, hend⟩ := Finset.mem_filter.mp hj
    have hlt := (Model.mem_activeColumns_iff.mp (List.mem_toFinset.mp hj)).1
    exact Finset.mem_filter.mpr ⟨Finset.mem_range.mpr (h.length_eq ▸ hlt), hend⟩
  · exact Finset.mem_filter.mpr ⟨List.mem_toFinset.mpr hopen, (Finset.mem_filter.mp hj).2⟩

theorem tight_within {set : List Node} (hne : set ≠ []) (hnodup : set.Nodup)
    (hsub : set ⊆ p.graph.vertices)
    (heq : weights ((p.within set).map fun j => (j, 1)) (x.getD · 0) = (set.length : K) - 1) :
    Tight (Finset.range p.edges.length) p.tail p.head (x.getD · 0) p.graph.vertices.toFinset
      set.toFinset where
  subset _ hv := List.mem_toFinset.mpr (hsub (List.mem_toFinset.mp hv))
  nonempty := List.toFinset_nonempty_iff _ |>.mpr hne
  full := by rw [← weights_within, heq, List.toFinset_card_of_nodup hnodup]

theorem Kept.eq_zero_of_unseen (h : Kept p q m) (hp : p.Sane) (hne : p.graph.vertices ≠ [])
    (hv : m.system.Vertex x) (hdrawn : m.Drawn p.model.rows.length p.subtours)
    (hopen : ∀ j ∈ m.activeColumns, 0 < x.getD j 0 ∧ x.getD j 0 < 1) {d : Nat → K}
    (hd : ∀ j ∉ m.activeColumns, d j = 0)
    (hsets : ∀ set, Tight (Finset.range p.edges.length) p.tail p.head (x.getD · 0)
      p.graph.vertices.toFinset set → held (Finset.range p.edges.length) p.tail p.head d set = 0)
    (hverts : ∀ i ∈ m.activeRows, ∀ v, p.rowVertex i = some v →
      ∑ j ∈ m.activeColumns.toFinset with p.tail j = v ∨ p.head j = v, d j = 0) : d = 0 := by
  have hx := Model.feasible_iff_admits.mp hv.feasible
  refine h.ledger.eq_zero_of_vertex (b := { kind := .double, lo := 0, hi := 1 })
    (by simp [model, column]) hv (fun j hj => ?_) hd fun r hr hk => ?_
  · simpa [Bound.Inside, Bound.floor?, Bound.ceiling?] using hopen j hj
  obtain ⟨i, hi, rfl⟩ := List.getElem_of_mem hr
  have hrow := List.getElem?_eq_getElem hi
  rcases Nat.lt_or_ge i p.model.rows.length with hlt | hge
  · obtain ⟨-, hcoefs⟩ := h.ledger.grown.row (List.getElem?_eq_getElem hlt) hrow
    rw [hcoefs]
    right
    cases i with
    | zero =>
      -- the row of all edges is the one of the set of all vertices
      change weights ((List.range p.edges.length).map fun j => (j, 1)) d = 0
      rw [hp.weights_all]
      refine hsets _ ⟨subset_rfl, List.toFinset_nonempty_iff _ |>.mpr hne, ?_⟩
      rw [← hp.weights_all, h.total hx, List.toFinset_card_of_nodup hp.graph.nodup]
    | succ k =>
      obtain ⟨v, hvertex⟩ : ∃ v, p.boundedVertices[k]? = some v := by
        have hlt : k < p.boundedVertices.length := by simpa [model] using hlt
        exact ⟨_, List.getElem?_eq_getElem hlt⟩
      have hrow₀ : p.model.rows[k + 1] = p.degreeRow v :=
        Option.some.inj ((List.getElem?_eq_getElem hlt).symm.trans (rowVertex_eq_some hvertex))
      rw [hrow₀]
      change weights ((p.incident v).map fun j => (j, 1)) d = 0
      rw [h.weights_incident_eq hd]
      exact hverts (k + 1) (Model.mem_activeRows.mpr ⟨_, hrow, hk⟩) v hvertex
  · obtain ⟨_, ⟨set, hset, hnodup, hsub, rfl⟩, hbound, hcoefs⟩ := hdrawn i _ hge hrow
    have hmet := hx.rows _ hr hk
    rw [hbound, hcoefs] at hmet ⊢
    have hmet : weigh ((p.within set).map fun j => (j, 1)) x ≤ (set.length : K) - 1 := hmet
    rcases hmet.lt_or_eq with hslack | htight
    · left
      simpa [cover, Bound.Inside, Bound.floor?, Bound.ceiling?] using hslack
    · right
      change weights ((p.within set).map fun j => (j, 1)) d = 0
      rw [weigh_eq_weights] at htight
      rw [weights_within]
      exact hsets _ (tight_within hset hnodup hsub htight)

/-- Some column is next to zero or one, or some degree row may go. -/
def Moves (p q : BoundedTree K S) (m : Model K) : Prop :=
  (∃ c ∈ m.activeColumns, ∃ x, m.columnValue c = .ok x ∧
    (|x| < p.tolerance.epsilon ∨ |x - 1| < p.tolerance.epsilon)) ∨
  ∃ row ∈ m.activeRows, ∃ v d, p.rowVertex row = some v ∧ m.rowDegree row = .ok d ∧
    ((d + q.committedDegree v : ℕ) : ℤ) ≤ (p.bound? v).getD 0 + 1

/-- At a vertex that leaves a column open some column can be fixed or some row relaxed. -/
theorem Kept.exists_move (h : Kept p q m) (hp : p.Sane) (hne : p.graph.vertices ≠ [])
    (hε : 0 < p.tolerance.epsilon) {s : Solution K} (hs : m.solution = some s)
    (hv : m.system.Vertex s.values) (hsparse : p.Sparse s.values)
    (hdrawn : m.Drawn p.model.rows.length p.subtours) (ho : m.activeColumns ≠ []) :
    p.Moves q m := by
  classical
  have hx := Model.feasible_iff_admits.mp hv.feasible
  by_contra hno
  rw [Moves, not_or] at hno
  obtain ⟨hcolumns, hrows⟩ := hno
  have hbetween : ∀ j ∈ m.activeColumns, 0 < s.values.getD j 0 ∧ s.values.getD j 0 < 1 := by
    intro j hj
    have hc := Model.columnValue_eq hs hx.length (Model.mem_activeColumns_iff.mp hj).1
    exact between_of_far hε (h.range hx j).1 (h.range hx j).2 fun hnear =>
      hcolumns ⟨j, hj, _, hc, hnear⟩
  let vertices := p.graph.vertices.toFinset.filter fun v =>
    ∃ i ∈ m.activeRows, p.rowVertex i = some v
  have hmem {i : Nat} {v : Node} (hvertex : p.rowVertex i = some v) : v ∈ p.graph.vertices := by
    cases i with
    | zero => cases hvertex
    | succ k => exact (List.mem_filter.mp (List.mem_of_getElem? hvertex)).1
  have hleft : ∀ v ∈ vertices, 2 ≤ ∑ j ∈ m.activeColumns.toFinset with p.tail j = v ∨ p.head j = v,
      (1 - s.values.getD j 0) := by
    intro v hv
    obtain ⟨-, i, hi, hvertex⟩ := Finset.mem_filter.mp hv
    obtain ⟨r, hr, -⟩ := Model.mem_activeRows.mp hi
    have hd := Model.rowDegree_eq_ok.mpr ⟨r, hr, rfl⟩
    refine h.left_over hx hsparse (hmem hvertex) hi hvertex hd ?_
    by_contra hle
    exact hrows ⟨i, hi, v, _, hvertex, hd, not_lt.mp hle⟩
  have hsome : m.activeColumns.toFinset.Nonempty := List.toFinset_nonempty_iff _ |>.mpr ho
  have hsub : m.activeColumns.toFinset ⊆ Finset.range p.edges.length := by
    intro j hj
    have hlt := (Model.mem_activeColumns_iff.mp (List.mem_toFinset.mp hj)).1
    exact Finset.mem_range.mpr (h.length_eq ▸ hlt)
  have hclosed : ∀ j ∈ Finset.range p.edges.length, j ∉ m.activeColumns.toFinset →
      s.values.getD j 0 = 0 ∨ s.values.getD j 0 = 1 := fun j hj hno =>
    (h.closed_column hx (Finset.mem_range.mp hj) (List.mem_toFinset.not.mp hno)).imp
      And.right And.right
  obtain ⟨d, hne', hd, hsets, hverts⟩ := exists_unseen hsome hsub hsparse.forestlike
    (fun j hj => hbetween j (List.mem_toFinset.mp hj)) hclosed hleft
  refine hne' (h.eq_zero_of_unseen hp hne hv hdrawn hbetween
    (fun j hj => hd j (List.mem_toFinset.not.mpr hj)) hsets fun i hi v hvertex => hverts v ?_)
  exact Finset.mem_filter.mpr ⟨List.mem_toFinset.mpr (hmem hvertex), i, hi, hvertex⟩

theorem bound?_of_rowVertex {i : Nat} (h : p.rowVertex i = some v) : ∃ b, p.bound? v = some b := by
  cases i with
  | zero => cases h
  | succ k =>
    have hmem : v ∈ p.boundedVertices := List.mem_of_getElem? h
    exact Option.isSome_iff_exists.mp (List.mem_filter.mp hmem).2

section Runs

variable [Backend K] [Dice S K]

theorem gentle : (checker (K := K) (S := S)).Gentle where
  prepare _ m := (Mild.mapM (fun _ => m.mild_columnValue _) _).bind fun _ => .ok _
  check _ _ _ := Network.mild_siteCut.bind fun _ => .ok _

theorem mute_commit (j : Nat) : Mute (commit (K := K) (S := S) j) := by
  refine Mute.problem.bind fun p => ?_
  split
  · exact .throw id
  · exact .modify _

theorem mute_relaxable (i : Nat) : Mute (relaxable (K := K) (S := S) i) := by
  refine Mute.problem.bind fun p => ?_
  split
  · exact .pure _
  · refine Mute.model.bind fun m => ?_
    exact (Mute.lift (m.mild_rowDegree i)).bind fun _ => .pure _

theorem mute_limited (limit : Nat → Bool) : (limited limit : Policies (BoundedTree K S) K).Mute :=
  have hsolve : Mute (SolveRule.generating.apply (P := BoundedTree K S) (K := K)) :=
    Action.mute_solveModel.bind fun st =>
      mute_generateRows (Oracle.mute_feasible gentle) Oracle.mute_separate _ st
  { ask := RoundRule.mute_commitOne mute_commit
    relax := mute_relaxable
    setSolution := .pure _
    solve := hsolve
    resolve := hsolve
    stop := Mute.model.bind fun _ => .pure _ }

theorem vertex_of_solved {limit : Nat → Bool} (hsolver : (Backend.solver : Solver K).Extreme)
    {first : Bool} {s t : Run (BoundedTree K S) K}
    (h : Engine.Reached (limited limit) (limited limit).ask s (.solved first .optimal) t) :
    ∃ s, t.lp.solution = some s ∧ t.lp.system.Vertex s.values :=
  h.establishes (Model.vertex_of_solve hsolver) (fun h => (tidy.feasible h).1)
    (limited_committing limit).standard

theorem exists_move_of_reached {entries : List Choice} {limit : Nat → Bool}
    (hsolver : (Backend.solver : Solver K).Extreme)
    (hflow : (Backend.flow : FlowFinder Site K).Sound) (hp : p.Sane)
    (hε : 0 < p.tolerance.epsilon) (hsink : p.sink = .ofList entries) (hcommitted : p.committed = [])
    (hlands : Engine.Lands (limited limit) p.start p.Sparse) {first : Bool}
    {t : Run (BoundedTree K S) K}
    (h : Engine.Reached (limited limit) (limited limit).ask p.start (.solved first .optimal) t)
    (ho : t.lp.activeColumns ≠ []) :
    Kept p t.problem t.lp ∧ p.Moves t.problem t.lp := by
  have hrestrained := (limited_committing (K := K) (S := S) limit).restrained tidy
  have hkept := (settled_of_solved hsolver.sound hsink hcommitted h).1
  obtain ⟨s, hs, hv⟩ := vertex_of_solved hsolver h
  have hdrawn : t.lp.Drawn p.model.rows.length p.subtours := by
    refine h.drawn hrestrained (fun hwalk hstep => ?_) (subset_refl p.subtours)
      fun i r hi hr => ?_
    · obtain ⟨hsane, hfamily⟩ := sane_of_step hsolver.sound hp hsink hcommitted hwalk hstep
      exact hfamily ▸ (generates hflow).extended rfl rfl hsane hstep
    · exact absurd (List.getElem?_eq_some_iff.mp hr).1 (not_lt.mpr hi)
  have hne : p.graph.vertices ≠ [] := by
    intro hnil
    obtain ⟨j, hj⟩ := List.exists_mem_of_ne_nil _ ho
    have hlt := hkept.length_eq ▸ (Model.mem_activeColumns_iff.mp hj).1
    have hend := (hp.ends hlt).1
    rw [hnil] at hend
    exact List.not_mem_nil hend
  exact ⟨hkept, hkept.exists_move hp hne hε hs hv (hlands h hs) hdrawn ho⟩

theorem Kept.not_vain {limit : Nat → Bool} {t : Run (BoundedTree K S) K}
    (h : Kept p t.problem t.lp) (hmove : p.Moves t.problem t.lp) : ¬ Engine.Vain (limited limit) t := by
  rintro ⟨hcolumns, hrows⟩
  obtain ⟨sink, committed, oracle, hq⟩ := h.same
  rcases hmove with ⟨c, hc, x, hx, hnear⟩ | ⟨i, hi, hmove⟩
  · obtain ⟨u, w, ⟨hproblem, hlp⟩, hr⟩ := hcolumns c hc
    obtain ⟨y, hy, hzero, hone⟩ := RoundRule.returns_commitOne_none hr
    rw [hlp, hx] at hy
    obtain rfl := Except.ok.inj hy
    have hε : (Roundable.tolerance u.problem).epsilon = p.tolerance.epsilon := by
      rw [hproblem, hq]
      rfl
    rw [hε] at hzero hone
    rcases hnear with hnear | hnear
    · exact absurd hnear (not_lt.mpr hzero)
    · exact absurd hnear (not_lt.mpr hone)
  · obtain ⟨u, w, ⟨hproblem, hlp⟩, hr⟩ := hrows i hi
    obtain ⟨-, hiff⟩ := returns_relaxable hr
    refine absurd (hiff.mpr ?_) Bool.false_ne_true
    rw [hproblem, hlp]
    rw [hq] at hmove ⊢
    exact hmove

/-- No run is stuck, whatever the bounds are, however many rows a pass may relax and even if columns
are fixed next to their values, where the solver ends at vertices and in every accepted point each set
of vertices has one less inside than it has members, at most: as long as a column is open some column
is next to zero or one, or the open edges of some kept degree row and those taken at its vertex exceed
the bound by one at most. -/
theorem tree_never_stuck {ε : K} {g : Graph K} {bounds : List (Node × Int)} {costName : String}
    {entries : List Choice} {strategy : Strategy} {dice : S} (hg : g.Valid)
    (hmake : make ε g bounds costName entries strategy dice = .ok p) (hε : 0 < ε)
    (limit : Nat → Bool) (hlimit : limit 0 = false)
    (hsolver : (Backend.solver : Solver K).Extreme)
    (hflow : (Backend.flow : FlowFinder Site K).Sound)
    (hlands : Engine.Lands (limited limit) p.start p.Sparse) :
    (∀ first t,
      Engine.Reached (limited limit) (limited limit).ask p.start (.solved first .optimal) t →
      t.lp.activeColumns ≠ [] →
      (∃ c ∈ t.lp.activeColumns, ∃ x, t.lp.columnValue c = .ok x ∧ (|x| < ε ∨ |x - 1| < ε)) ∨
      ∃ row ∈ t.lp.activeRows, ∃ v b d, p.rowVertex row = some v ∧ p.bound? v = some b ∧
        t.lp.rowDegree row = .ok d ∧ ((d + t.problem.committedDegree v : ℕ) : ℤ) ≤ b + 1) ∧
    ∀ e t, Engine.solveProblem (limited limit) { problem := p } = .error e t →
      ∀ iteration model columns rows, e ≠ .stuck iteration model columns rows := by
  obtain ⟨-, -, -, htol, -, hsink, hcommitted⟩ := make_eq_ok hmake
  subst htol
  have hp := sane_of_make hg hmake
  have hmoves : ∀ {first : Bool} {t : Run (BoundedTree K S) K},
      Engine.Reached (limited limit) (limited limit).ask p.start (.solved first .optimal) t →
      t.lp.activeColumns ≠ [] → Kept p t.problem t.lp ∧ p.Moves t.problem t.lp :=
    exists_move_of_reached hsolver hflow hp hε hsink hcommitted hlands
  refine ⟨fun first t h ho => ?_, fun e t h => ?_⟩
  · refine (hmoves h ho).2.imp_right ?_
    rintro ⟨row, hrow, v, d, hv, hd, hle⟩
    obtain ⟨b, hb⟩ := bound?_of_rowVertex hv
    rw [hb] at hle
    exact ⟨row, hrow, v, b, d, hv, hb, hd, hle⟩
  · have hmute := mute_limited (K := K) (S := S) limit
    have hstuck : ¬ e.IsStuck := by
      refine Engine.not_isStuck_of_solveProblem (Mute.problem.bind fun _ => .pure _)
        (Mute.problem.bind fun _ => .modify _) (fun hc hi hf => ?_) h
      obtain ⟨-, rfl⟩ := returns_begin hc hi
      refine Engine.not_isStuck_of_run ((limited_committing limit).restrained tidy) hmute
        (policies_keeps p limit hsolver.sound) rfl hlimit (fun hreach hopen hvain => ?_) hf
      obtain ⟨hkept, hmove⟩ := hmoves hreach hopen
      exact hkept.not_vain hmove hvain
    rintro n model columns rows rfl
    exact hstuck trivial

end Runs

def triangle : Graph ℚ where
  vertices := [.number 1, .number 2, .number 3]
  links := [
    { tail := .number 1, head := .number 2, key := 0, attrs := [("cost", 1)] },
    { tail := .number 1, head := .number 3, key := 0, attrs := [("cost", 1)] },
    { tail := .number 2, head := .number 3, key := 0, attrs := [("cost", 3)] }]

theorem triangle_valid : triangle.Valid :=
  ⟨by decide, by decide, by decide⟩

@[reducible] noncomputable def exactBackend : Backend ℚ where
  solver := Solver.exact
  flow := .certified Augment.finder
  passes := 5

theorem sparse_of_triangle {p : BoundedTree ℚ Unit} (hgraph : p.graph = triangle)
    (hedges : p.edges = triangle.edges) {a b c : ℚ} (ha : a ≤ 1) (hb : b ≤ 1) (hc : c ≤ 1)
    (hsum : a + b + c = 2) : p.Sparse [a, b, c] := by
  intro set hsub hne
  rw [hgraph] at hsub
  have hcard : (set.card : ℚ) = (if Node.number 1 ∈ set then 1 else 0) +
      (if Node.number 2 ∈ set then 1 else 0) + if Node.number 3 ∈ set then 1 else 0 := by
    have hall : triangle.vertices.toFinset.filter (· ∈ set) = set := by
      rw [Finset.filter_mem_eq_inter, Finset.inter_eq_right.mpr hsub]
    rw [← hall, Finset.natCast_card_filter, triangle, List.sum_toFinset _ (by decide)]
    simp [add_assoc]
  have hlisted : triangle.edges = [⟨⟨.number 1, .number 2, none⟩, [("cost", 1)]⟩,
      ⟨⟨.number 1, .number 3, none⟩, [("cost", 1)]⟩,
      ⟨⟨.number 2, .number 3, none⟩, [("cost", 3)]⟩] := rfl
  have hweight : weight (p.entries [a, b, c]) set =
      (if Node.number 1 ∈ set ∧ Node.number 2 ∈ set then a else 0) +
      (if Node.number 1 ∈ set ∧ Node.number 3 ∈ set then b else 0) +
      if Node.number 2 ∈ set ∧ Node.number 3 ∈ set then c else 0 := by
    rw [entries, hedges, hlisted]
    simp [weight, add_assoc]
  have hpos : (1 : ℚ) ≤ set.card := by exact_mod_cast hne.card_pos
  rw [hweight]
  rw [hcard] at hpos ⊢
  by_cases h1 : Node.number 1 ∈ set <;> by_cases h2 : Node.number 2 ∈ set <;>
    by_cases h3 : Node.number 3 ∈ set <;> simp [h1, h2, h3] at hpos ⊢ <;> linarith

theorem triangle_never_stuck :
    let _ := exactBackend
    let _ : Dice Unit ℚ := Dice.zero
    ∃ p : BoundedTree ℚ Unit,
      make (1 / 10) triangle [(.number 1, 1)] "cost" [] .first () = .ok p ∧ p.issue = none ∧
      ∀ e t, Engine.solveProblem policies { problem := p } = .error e t →
        ∀ iteration model columns rows, e ≠ .stuck iteration model columns rows := by
  let _ := exactBackend
  let _ : Dice Unit ℚ := Dice.zero
  let limit : Nat → Bool := fun _ => false
  obtain ⟨p, hp, hissue⟩ := exists_ok
    (make (1 / 10) triangle [(.number 1, 1)] "cost" [] .first () : Except _ (BoundedTree ℚ Unit))
    (fun p => p.issue.isNone) (by decide +kernel)
  obtain ⟨hgraph, hedges, -, -, -, hsink, hcommitted⟩ := make_eq_ok hp
  have hsolver : (Backend.solver : Solver ℚ).Extreme := Solver.exact_exact.extreme
  have hlands : Engine.Lands (limited limit) p.start p.Sparse := by
    intro first t s hreach hs
    have hkept := (settled_of_solved hsolver.sound hsink hcommitted hreach).1
    obtain ⟨s', hs', hv⟩ := vertex_of_solved hsolver hreach
    obtain rfl := Option.some.inj (hs.symm.trans hs')
    have hx := Model.feasible_iff_admits.mp hv.feasible
    have hlength : s.values.length = 3 := by
      rw [hx.length, ← hkept.length_eq, hedges]
      rfl
    obtain ⟨a, b, c, hvalues⟩ := List.length_eq_three.mp hlength
    have htotal := hkept.total hx
    have hrange := fun j => (hkept.range hx j).2
    rw [hvalues] at htotal hrange ⊢
    refine sparse_of_triangle hgraph hedges (hrange 0) (hrange 1) (hrange 2) ?_
    have hthree : triangle.edges.length = 3 := rfl
    rw [hedges, hgraph, hthree] at htotal
    have htwo : a + (b + c) = 3 - 1 := by simpa [weights, List.range_succ, triangle] using htotal
    linarith
  refine ⟨p, hp, by simpa using hissue, ?_⟩
  exact (tree_never_stuck triangle_valid hp (by norm_num) limit rfl hsolver
    (FlowFinder.certified_sound _) hlands).2

end LPRounding.BoundedTree
