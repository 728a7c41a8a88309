import LPRounding.Proofs.Run.Budget
import LPRounding.Proofs.Run.Families

/-!
Spanning trees with degree bounds: what an answer costs, against any spanning tree within the bounds.
The point of such a tree meets every row, the ones of all vertex sets too, so the first point costs
no more. Each later point takes the place of the one before it, which met the whole family and had
the constants that were fixed since.
-/

namespace LPRounding.BoundedTree

set_option linter.unusedSectionVars false

variable {K S : Type} [Field K] [LinearOrder K] [IsStrictOrderedRing K] [FloorRing K]
  {p q : BoundedTree K S} {m : Model K} {T : List (Edge K)} {x : List K}

theorem weigh_within (p : BoundedTree K S) (set : List Node) (x : List K) :
    weigh ((p.within set).map fun j => (j, 1)) x = weight (p.entries x) set.toFinset := by
  rw [weigh_ones, within, Model.positions, List.map_map, weight, entries, List.map_map]
  rw [sum_map_filter p.edges.zipIdx fun e => e.1.name.u ∈ set && e.1.name.v ∈ set]
  refine congrArg List.sum (List.map_congr_left fun e _ => ?_)
  simp

theorem Sparse.admits (h : p.Sparse x) : ∀ r ∈ p.subtours, r.bound.Admits (weigh r.coefs x) := by
  rintro _ ⟨set, hne, hnodup, hsub, rfl⟩
  have hle := h set.toFinset (fun v hv => List.mem_toFinset.mpr (hsub (List.mem_toFinset.mp hv)))
    (List.toFinset_nonempty_iff set |>.mpr hne)
  rw [← weigh_within, List.toFinset_card_of_nodup hnodup] at hle
  exact hle

theorem Kept.sane (h : Kept p q m) (hp : p.Sane) : q.Sane ∧ q.subtours = p.subtours := by
  obtain ⟨sink, committed, oracle, rfl⟩ := h.same
  exact ⟨⟨hp.graph, hp.edges, hp.epsilon⟩, rfl⟩

theorem sparse_of_acyclic (h : Acyclic (T.map fun e => (e.name.u, e.name.v)))
    (hx : Selects p.edges T x) : p.Sparse x := by
  intro set _ hne
  have hlt := h.enclosed_lt hne
  rw [enclosed, List.countP_map] at hlt
  have hcount : (T.countP fun e => e.name.u ∈ set.toList && e.name.v ∈ set.toList) + 1 ≤
      set.card := by
    simpa [Function.comp_def] using hlt
  have hweight := p.weigh_within set.toList x
  rw [within, hx.weigh_positions, Finset.toList_toFinset] at hweight
  rw [← hweight, le_sub_iff_add_le]
  exact_mod_cast hcount

/-- A tree over the vertices that is within the bounds. -/
structure Fits (p : BoundedTree K S) (pairs : List (Node × Node)) : Prop where
  connected : Connected p.graph.vertices pairs
  acyclic : Acyclic pairs
  bounds : ∀ v ∈ p.graph.vertices, ∀ b, p.bound? v = some b → (degree pairs v : ℤ) ≤ b

/-- The point of a tree within the bounds is a point with the row of every set. -/
theorem Fits.meets (h : p.Fits (T.map fun e => (e.name.u, e.name.v))) (hp : p.Sane)
    (hne : p.graph.vertices ≠ []) (hT : ∀ e ∈ T, e ∈ p.edges) (hx : Selects p.edges T x) :
    p.model.Meets p.subtours x := by
  have hends : ∀ e ∈ T.map fun e => (e.name.u, e.name.v),
      e.1 ∈ p.graph.vertices ∧ e.2 ∈ p.graph.vertices := by
    intro _ hmem
    obtain ⟨e, he, rfl⟩ := List.mem_map.mp hmem
    exact hp.graph.edge_ends (hp.edges ▸ hT e he)
  refine ⟨hx.admits (by simp [model]) (fun c hc => ?_) (fun r hr => ?_), ?_⟩
  · obtain ⟨e, -, rfl⟩ := List.mem_map.mp hc
    exact ⟨rfl, ⟨le_rfl, zero_le_one⟩, zero_le_one, le_rfl⟩
  · rcases List.mem_cons.mp hr with rfl | hr
    · have hlength := h.connected.length_of_acyclic h.acyclic hp.graph.nodup hne hends
      rw [List.length_map] at hlength
      change weigh ((List.range p.edges.length).map fun j => (j, 1)) x =
        Scalar.ofInt ((p.graph.vertices.length : ℤ) - 1)
      rw [← Model.positions_true, hx.weigh_positions, List.countP_true, Scalar.ofInt_eq, ← hlength]
      push_cast
      ring
    · obtain ⟨v, hv, rfl⟩ := List.mem_map.mp hr
      obtain ⟨hv, hb⟩ := List.mem_filter.mp hv
      obtain ⟨b, hb⟩ := Option.isSome_iff_exists.mp hb
      have hle := h.bounds v hv b hb
      rw [degree_eq, List.countP_map] at hle
      change weigh ((Model.positions _ p.edges).map fun j => (j, 1)) x ≤
        Scalar.ofInt ((p.bound? v).getD 0)
      rw [hx.weigh_positions, hb, Option.getD_some, Scalar.ofInt_eq]
      have hle : ((T.countP fun e => e.name.u = v || e.name.v = v : ℕ) : ℤ) ≤ b :=
        le_trans (Int.ofNat_le.mpr (Nat.le_add_right _ _)) hle
      exact_mod_cast hle
  · exact (sparse_of_acyclic h.acyclic hx).admits

/-- The start of a run for a problem. -/
abbrev start (p : BoundedTree K S) : Run (BoundedTree K S) K :=
  { problem := p, lp := p.model }

section Runs

variable [Backend K] [Dice S K]

theorem returns_begin {u v : Run (BoundedTree K S) K}
    (hc : Returns Roundable.check { problem := p } none u)
    (hi : Returns (policies (K := K) (S := S)).init u () v) : p.issue = none ∧ v = p.start := by
  simp only [Roundable.check, returns_bind, Action.returns_problem, returns_pure] at hc
  obtain ⟨_, _, ⟨rfl, rfl⟩, hissue, rfl⟩ := hc
  simp only [policies, build, returns_bind, Action.returns_problem, Action.returns_setModel] at hi
  obtain ⟨_, _, ⟨rfl, rfl⟩, rfl⟩ := hi
  exact ⟨hissue, rfl⟩

/-- The policies with a limit to the rows that a pass may relax. -/
abbrev limited (limit : Nat → Bool) : Policies (BoundedTree K S) K := { policies with limit }

theorem limited_committing (limit : Nat → Bool) :
    (limited limit : Policies (BoundedTree K S) K).Committing home.Apart where
  standard := ⟨⟨.generating, rfl⟩, ⟨.generating, rfl⟩, rfl,
    policies_committing.standard.setSolution⟩
  rounding := policies_committing.rounding
  relax := policies_committing.relax
  setSolution := policies_committing.setSolution

theorem settled_of_solved {entries : List Choice} {limit : Nat → Bool}
    (hsolver : (Backend.solver : Solver K).Sound) (hsink : p.sink = .ofList entries)
    (hcommitted : p.committed = []) {first : Bool} {t : Run (BoundedTree K S) K}
    (h : Engine.Reached (limited limit) (limited limit).ask p.start (.solved first .optimal) t) :
    Settled p t.problem t.lp :=
  (policies_keeps p limit hsolver).reached rfl (kept_model hsink hcommitted) h rfl

theorem sane_of_step {entries : List Choice} {limit : Nat → Bool}
    (hsolver : (Backend.solver : Solver K).Sound) (hp : p.Sane) (hsink : p.sink = .ofList entries)
    (hcommitted : p.committed = []) {a : Engine.Stage K × Run (BoundedTree K S) K} {first : Bool}
    {st : Status} {t : Run (BoundedTree K S) K}
    (hwalk : Engine.Walk (limited limit) (limited limit).ask (.begun, p.start) a)
    (hstep : Engine.Step (limited limit) (limited limit).ask a (.solved first st, t)) :
    a.2.problem.Sane ∧ subtours a.2.problem = p.subtours :=
  ((policies_keeps p limit hsolver).before_solve rfl (kept_model hsink hcommitted) hwalk
    hstep).sane hp

theorem thrifty {entries : List Choice} {limit : Nat → Bool}
    (hsolver : (Backend.solver : Solver K).Faithful)
    (hflow : (Backend.flow : FlowFinder Site K).Sound) (hp : p.Sane)
    (hsink : p.sink = .ofList entries) (hcommitted : p.committed = [])
    (hexact : Engine.Exactly (limited limit) p.start Set.univ)
    (hlands : Engine.Lands (limited limit) p.start p.Sparse) :
    Engine.Thrifty (limited limit) p.start p.subtours 1 := by
  have hrestrained := (limited_committing (K := K) (S := S) limit).restrained tidy
  refine .of_exactly hrestrained ?_ hexact
  exact Engine.findsCheapest_of_generates (generates hflow) hsolver hrestrained rfl rfl rfl
    (sane_of_step hsolver.sound hp hsink hcommitted) (hlands.mono fun x hx => hx.admits)

/-- If every column had the value that it was fixed at and in every accepted point each set of
vertices had one less inside than it has members, at most, the tree of an answer costs no more than
any spanning tree within the bounds, however many rows a pass may relax. -/
theorem tree_within_optimum {ε : K} {g : Graph K} {bounds : List (Node × Int)} {costName : String}
    {entries : List Choice} {strategy : Strategy} {dice : S} (hg : g.Valid)
    (hmake : make ε g bounds costName entries strategy dice = .ok p) (limit : Nat → Bool)
    (hsolver : (Backend.solver : Solver K).Faithful)
    (hflow : (Backend.flow : FlowFinder Site K).Sound) {out : Outcome K}
    {t : Run (BoundedTree K S) K}
    (h : Returns (Engine.solveProblem (limited limit)) { problem := p } out t)
    (ho : out.status = .optimal) (hexact : Engine.Exactly (limited limit) p.start Set.univ)
    (hlands : Engine.Lands (limited limit) p.start p.Sparse) (hT : T.Sublist g.edges)
    (hfits : p.Fits (T.map fun e => (e.name.u, e.name.v))) :
    ∃ chosen : List (Edge K), (∀ e ∈ chosen, e ∈ g.edges) ∧
      t.problem.sink.entries = entries ++ chosen.map (fun e => .edge e.name) ∧
      (chosen.map fun e => e.cost costName).sum ≤ (T.map fun e => e.cost costName).sum := by
  obtain ⟨-, hedges, -, -, -, hsink, hcommitted⟩ := make_eq_ok hmake
  have hsane := sane_of_make hg hmake
  have hname := costName_of_make hmake
  obtain ⟨s, u, hcheck, hinit, hrun⟩ := Engine.returns_solveProblem h
  obtain ⟨hissue, rfl⟩ := returns_begin hcheck hinit
  have hne : p.graph.vertices ≠ [] := by
    intro hnil
    simp [issue, hnil] at hissue
  obtain ⟨z, hz⟩ := exists_selects (K := K) hT
  have hz : Selects p.edges T z := hedges ▸ hz
  obtain ⟨c, hout, hle⟩ := (thrifty hsolver hflow hsane hsink hcommitted hexact hlands).share_le
    (limited_committing limit).standard hsolver.truthful (fun h => (tidy.feasible h).1)
    (by simp [model, column]) (hfits.meets hsane hne (hedges ▸ hT.subset) hz) hrun ho
  have hstart : p.Tells entries p [] := ⟨rfl, [], hsink ▸ .ofList entries _, hcommitted⟩
  obtain ⟨js, ⟨-, es, hlists, -⟩, hpaid⟩ := Engine.billed_of_run hsolver.truthful tidy
    (p.records entries) (limited_committing limit) (by simp [model, column]) rfl hstart hrun ho
  have hbilled : t.problem.sink.Billed g costName entries (some (js.map p.model.costAt).sum) :=
    hlists.billed (by simp [hedges]) (by simp [model, column, Function.comp_def, hname])
  obtain ⟨chosen, hmem, hsinks, hsum⟩ := hbilled
  refine ⟨chosen, hmem, hsinks, ?_⟩
  obtain rfl := Option.some.inj ((hpaid.trans hsum).symm.trans hout)
  have hcost : p.model.costOf z = (T.map fun e => e.cost costName).sum :=
    hz.costOf (by simp [model, column, Function.comp_def, hname])
  rwa [one_mul, hcost] at hle

end Runs

@[reducible] noncomputable def treeBackend (points : List (List ℚ × Prices ℚ)) : Backend ℚ :=
  { provingBackend points with flow := .certified Augment.finder }

/-- The first point has a triangle, so one more row is found and the dear edge is taken for one of
the cheap ones; another tree within the bound costs as much. -/
theorem pendant_within_optimum :
    let _ := treeBackend [([1, 1, 1, 0], { equal := [-5] }),
      ([1, 1, 0, 1], { atMost := [0, 4], equal := [-5] }), ([1, 1, 0, 1], {})]
    let _ : Dice Unit ℚ := Dice.zero
    ∃ (p : BoundedTree ℚ Unit) (out : Outcome ℚ) (t : Run (BoundedTree ℚ Unit) ℚ)
      (T chosen : List (Edge ℚ)),
      make (1 / 10) pendant [(.number 3, 2)] "cost" [] .first () = .ok p ∧
      Returns (Engine.solveProblem (limited fun n => 1 ≤ n)) { problem := p } out t ∧
      out.status = .optimal ∧ T.Sublist pendant.edges ∧
      p.Fits (T.map fun e => (e.name.u, e.name.v)) ∧ (T.map fun e => e.cost "cost").sum = 7 ∧
      t.problem.sink.entries = chosen.map (fun e => .edge e.name) ∧
      (chosen.map fun e => e.cost "cost").sum ≤ (T.map fun e => e.cost "cost").sum := by
  let points : List (List ℚ × Prices ℚ) :=
    [([1, 1, 1, 0], { equal := [-5] }), ([1, 1, 0, 1], { atMost := [0, 4], equal := [-5] }),
      ([1, 1, 0, 1], {})]
  let _ := treeBackend points
  let _ : Dice Unit ℚ := Dice.zero
  let limit : Nat → Bool := fun n => 1 ≤ n
  obtain ⟨p, hp, htest⟩ := exists_ok (make (1 / 10) pendant [(.number 3, 2)] "cost" [] .first ())
    (fun p => solves (limited limit) p &&
      p.graph.vertices.all fun v => (p.bound? v).all fun b =>
        (degree ((pendant.edges.eraseIdx 1).map fun e => (e.name.u, e.name.v)) v : ℤ) ≤ b)
    (by decide +kernel)
  obtain ⟨hrun, hbounds⟩ := Bool.and_eq_true_iff.mp htest
  obtain ⟨out, t, h, ho⟩ := exists_answer hrun
  obtain ⟨hgraph, hedges, -, htol, h0, hsink, hcommitted⟩ := make_eq_ok hp
  have hsolver : (Backend.solver : Solver ℚ).Faithful := Solver.proving_faithful _ _
  have hstandard := (limited_committing (K := ℚ) (S := Unit) limit).standard
  have hkeeps := policies_keeps (S := Unit) p limit hsolver.sound
  have hbinary : Engine.Lands (limited limit) p.start fun x => ∀ v ∈ x, v = 0 ∨ v = 1 := by
    refine Engine.lands_of_solver _ hstandard (fun h => (tidy.feasible h).1)
      (fun s x c hx => ?_) nofun
    have hpoints : ∀ x ∈ points.map Prod.fst, ∀ v ∈ x, v = 0 ∨ v = 1 := by decide +kernel
    exact hpoints x (Solver.mem_of_proving hx)
  have hexact : Engine.Exactly (limited limit) p.start Set.univ := by
    have hcrisp : Engine.Lands (limited limit) p.start (Engine.Crisp (1 / 10) [0, 1]) :=
      hbinary.mono fun x hx => Engine.crisp_of_binary (by norm_num) (by simp) hx
    refine hcrisp.exactly_of_commitOne ((limited_committing limit).restrained tidy) rfl
      fun hreach => ?_
    obtain ⟨⟨sink, committed, oracle, hq⟩, -⟩ :=
      (hkeeps.reached rfl (kept_model hsink hcommitted) hreach).1
    rw [← htol, hq]
    rfl
  have hlands : Engine.Lands (limited limit) p.start p.Sparse := by
    intro first t sol hreach hsol
    have hsettled := settled_of_solved hsolver.sound hsink hcommitted hreach
    refine hsettled.sparse (hgraph ▸ pendant_valid) (hgraph ▸ hedges) (htol ▸ h0)
      (htol ▸ by norm_num) (FlowFinder.certified_exact _) hsol fun e he => ?_
    obtain ⟨⟨e', j⟩, -, rfl⟩ := List.mem_map.mp he
    exact getD_of_forall (fun v : ℚ => v = 0 ∨ v = 1) (.inl rfl) (hbinary hreach hsol) j
  have hfits : p.Fits ((pendant.edges.eraseIdx 1).map fun e => (e.name.u, e.name.v)) := by
    have hconnected : Connected pendant.vertices
        ((pendant.edges.eraseIdx 1).map fun e => (e.name.u, e.name.v)) :=
      connected_of_isConnected (by decide +kernel) (by decide +kernel)
    refine ⟨hgraph ▸ hconnected, hconnected.acyclic (by decide +kernel) (by decide +kernel),
      fun v hv b hb => ?_⟩
    have hle := List.all_eq_true.mp hbounds v hv
    rw [hb] at hle
    exact of_decide_eq_true hle
  obtain ⟨chosen, -, hsinks, hle⟩ := tree_within_optimum pendant_valid hp limit hsolver
    (FlowFinder.certified_sound _) h ho hexact hlands (List.eraseIdx_sublist pendant.edges 1) hfits
  exact ⟨p, out, t, _, chosen, hp, h, ho, List.eraseIdx_sublist pendant.edges 1, hfits,
    by decide +kernel, hsinks, hle⟩

end LPRounding.BoundedTree
