import LPRounding.Proofs.SteinerNetwork.Feasible
import LPRounding.Proofs.SteinerNetwork.Shortfall
import LPRounding.Proofs.Run.Budget
import LPRounding.Proofs.Run.Families

/-!
Steiner networks: what an answer costs, against any edges that meet the requirements. Their point
meets every cut, also those that no row was generated for yet, so it takes part in every solve; where
an edge is taken its column is at a half or more, and what the point gives up there pays for half of
the edge.
-/

namespace LPRounding

set_option linter.unusedSectionVars false

variable {K S : Type} [Field K] [LinearOrder K] [IsStrictOrderedRing K] [FloorRing K]

/-- What each set is given is at least what every pair requires that it parts. -/
def Requirements.Suffices (r : Requirements K) (given : Finset Node → K) : Prop :=
  ∀ u v w, r.value? u v = some w → ∀ set : Finset Node, decide (u ∈ set) ≠ decide (v ∈ set) →
    w ≤ given set

theorem Requirements.Suffices.need_le {r : Requirements K} {given : Finset Node → K}
    (h : r.Suffices given) {set : Finset Node} (h0 : 0 ≤ given set) {u v : Node}
    (hset : decide (u ∈ set) ≠ decide (v ∈ set)) : r.need u v ≤ given set := by
  rw [need, Scalar.larger_eq]
  refine max_le ?_ ?_
  · cases hw : r.value? u v with
    | none => exact h0
    | some w => exact h u v w hw set hset
  · cases hw : r.value? v u with
    | none => exact h0
    | some w => exact h v u w hw set hset.symm

namespace SteinerNetwork

variable {p q : SteinerNetwork K S} {m : Model K} {F : List (Edge K)} {x : List K}

theorem admits_cuts {given : Finset Node → K} (h : p.requirements.Suffices given)
    (h0 : ∀ set, 0 ≤ given set)
    (hx : ∀ set : List Node, weigh ((p.crossing set).map fun j => (j, 1)) x = given set.toFinset) :
    ∀ r ∈ p.cuts, r.bound.Admits (weigh r.coefs x) := by
  rintro _ ⟨pair, -, set, hnear, hfar, rfl⟩
  have hset : decide (pair.1 ∈ set.toFinset) ≠ decide (pair.2 ∈ set.toFinset) := by
    simp [hnear, hfar]
  have hle := h.need_le (h0 set.toFinset) hset
  rw [← hx] at hle
  exact hle

theorem weigh_crossing (set : List Node) (x : List K) :
    weigh ((p.crossing set).map fun j => (j, 1)) x = across set.toFinset (p.valued x) :=
  weigh_cutRow ⟨0, (.number 0, .number 0), set, 0⟩ x

theorem exists_getD {v : K} {counts : Edge K × K → Bool}
    (hv : v ∈ ((p.valued x).filter counts).map Prod.snd) : ∃ j, x.getD j 0 = v := by
  obtain ⟨e, he, rfl⟩ := List.mem_map.mp hv
  obtain ⟨⟨_, j⟩, -, rfl⟩ := List.mem_map.mp (List.mem_of_mem_filter he)
  exact ⟨j, rfl⟩

theorem across_nonneg (hx : ∀ j, 0 ≤ x.getD j 0) (set : Finset Node) :
    0 ≤ across set (p.valued x) := by
  rw [across_eq]
  refine List.sum_nonneg fun v hv => ?_
  obtain ⟨j, rfl⟩ := exists_getD hv
  exact hx j

/-- The point of edges that meet the requirements is a point with every cut. -/
theorem meets_model (hreq : p.requirements.Suffices fun set =>
      F.countP fun e => crosses set (e.name.u, e.name.v))
    (hx : Selects p.edges F x) : p.model.Meets p.cuts x := by
  refine ⟨hx.admits (by simp [model]) (fun c hc => ?_) (by simp [model]), ?_⟩
  · obtain ⟨e, -, rfl⟩ := List.mem_map.mp hc
    exact ⟨rfl, ⟨le_rfl, zero_le_one⟩, zero_le_one, le_rfl⟩
  · refine admits_cuts hreq (fun set => Nat.cast_nonneg _) fun set => ?_
    rw [crossing, hx.weigh_positions]
    refine congrArg Nat.cast (List.countP_congr fun e _ => ?_)
    simp [crosses]

/-- The start of a run for a problem. -/
abbrev start (p : SteinerNetwork K S) : Run (SteinerNetwork K S) K :=
  { problem := p, lp := p.model }

section Runs

variable [Backend K] [Dice S K]

theorem kept_of_step {entries : List Choice} (hsolver : (Backend.solver : Solver K).Sound)
    (hsink : p.sink = .ofList entries) {a : Engine.Stage K × Run (SteinerNetwork K S) K}
    {first : Bool} {st : Status} {t : Run (SteinerNetwork K S) K}
    (hwalk : Engine.Walk policies policies.ask (.begun, p.start) a)
    (hstep : Engine.Step policies policies.ask a (.solved first st, t)) :
    Kept p a.2.problem a.2.lp :=
  (policies_keeps p hsolver).before_solve rfl (kept_model hsink) hwalk hstep

theorem kept_of_rounding {entries : List Choice} (hsolver : (Backend.solver : Solver K).Sound)
    (hsink : p.sink = .ofList entries) {n r : Nat} {columns : List Nat}
    {t : Run (SteinerNetwork K S) K}
    (h : Engine.Reached policies policies.ask p.start (.rounding n columns r) t) :
    Kept p t.problem t.lp :=
  ((policies_keeps p hsolver).reached rfl (kept_model hsink) h).1

theorem settled_of_solved {entries : List Choice} (hsolver : (Backend.solver : Solver K).Sound)
    (hsink : p.sink = .ofList entries) {first : Bool} {t : Run (SteinerNetwork K S) K}
    (h : Engine.Reached policies policies.ask p.start (.solved first .optimal) t) :
    Settled p t.problem t.lp :=
  (policies_keeps p hsolver).reached rfl (kept_model hsink) h rfl

theorem thrifty {ε : K} {entries : List Choice} (hsolver : (Backend.solver : Solver K).Faithful)
    (hflow : (Backend.flow : FlowFinder Site K).Maximal) (hsink : p.sink = .ofList entries)
    (htol : p.tolerance.epsilon = ε) (h0 : 0 ≤ ε) (hcosts : ∀ e ∈ p.edges, 0 ≤ e.cost p.costName)
    (hzero : Engine.Exactly policies p.start {0})
    (hlands : Engine.Lands policies p.start fun x =>
      p.requirements.Suffices fun set => across set (p.valued x)) :
    Engine.Thrifty policies p.start p.cuts (1 / 2 - ε) := by
  have hrestrained := policies_committing (K := K) (S := S).restrained tidy
  have hsane {a : Engine.Stage K × Run (SteinerNetwork K S) K} {first : Bool} {st : Status}
      {t : Run (SteinerNetwork K S) K}
      (hwalk : Engine.Walk policies policies.ask (.begun, p.start) a)
      (hstep : Engine.Step policies policies.ask a (.solved first st, t)) :
      0 ≤ a.2.problem.tolerance.epsilon ∧ cuts a.2.problem = p.cuts := by
    obtain ⟨sink, oracle, hq⟩ := (kept_of_step hsolver.sound hsink hwalk hstep).same
    rw [hq]
    exact ⟨htol ▸ h0, rfl⟩
  have hmeets : Engine.Lands policies p.start fun x =>
      ∀ r ∈ p.cuts, r.bound.Admits (weigh r.coefs x) := by
    intro first t sol hreach hsol
    obtain ⟨hkept, ⟨sol', hsol', hadmits⟩, -⟩ := settled_of_solved hsolver.sound hsink hreach
    obtain rfl := Option.some.inj (hsol.symm.trans hsol')
    exact admits_cuts (hlands hreach hsol) (across_nonneg fun j => (hkept.range hadmits j).1)
      fun set => weigh_crossing set _
  refine .of_commitHalf hrestrained
    (Engine.findsCheapest_of_generates (generates hflow) hsolver hrestrained rfl rfl rfl hsane
      hmeets) rfl hzero (fun j => ?_) Set.Subset.rfl ?_ fun {n r columns t} hreach => ?_
  · change 0 ≤ ((p.edges.map p.column)[j]?.map Column.cost).getD 0
    rw [List.getElem?_map]
    cases he : p.edges[j]? with
    | none => exact le_rfl
    | some e => exact hcosts e (List.mem_of_getElem? he)
  · rintro _ ⟨pair, -, set, -, -, rfl⟩
    exact ⟨rfl, _, rfl⟩
  · have hkept := kept_of_rounding hsolver.sound hsink hreach
    obtain ⟨sink, oracle, hq⟩ := hkept.same
    refine ⟨?_, ?_, fun z hz i => ⟨(hkept.range hz i).1, .inl (hkept.range hz i).2⟩⟩
    · rw [← htol, hq]
      rfl
    · refine Engine.Reached.drawn hrestrained (fun hwalk hstep => ?_) Set.Subset.rfl ?_ hreach
      · obtain ⟨hs, hfamily⟩ := hsane hwalk hstep
        exact hfamily ▸ (generates hflow).extended rfl rfl hs hstep
      · intro i r _ hr
        cases hr

/-- If every column that was dropped was at zero and every accepted point gave each set what the
pairs require that it parts, the edges of an answer cost at most twice as much, but for the
tolerance, as any edges that do so. -/
theorem network_within_twice {ε : K} {g : Graph K} {required : List ((Node × Node) × K)}
    {costName : String} {entries : List Choice} {strategy : Strategy} {dice : S}
    (hmake : make ε g (.ofList required) costName entries strategy dice = .ok p)
    (hsolver : (Backend.solver : Solver K).Faithful)
    (hflow : (Backend.flow : FlowFinder Site K).Maximal) (hε : ε < 1 / 2)
    (hcosts : ∀ e ∈ g.edges, 0 ≤ e.cost costName) {out : Outcome K}
    {t : Run (SteinerNetwork K S) K}
    (h : Returns (Engine.solveProblem policies) { problem := p } out t)
    (ho : out.status = .optimal) (hzero : Engine.Exactly policies p.start {0})
    (hlands : Engine.Lands policies p.start fun x =>
      (Requirements.ofList required).Suffices fun set => across set (p.valued x))
    (hF : F.Sublist g.edges) (hreq : (Requirements.ofList required).Suffices fun set =>
      F.countP fun e => crosses set (e.name.u, e.name.v)) :
    ∃ chosen : List (Edge K), (∀ e ∈ chosen, e ∈ g.edges) ∧
      t.problem.sink.entries = entries ++ chosen.map (fun e => .edge e.name) ∧
      (chosen.map fun e => e.cost costName).sum ≤
        2 / (1 - 2 * ε) * (F.map fun e => e.cost costName).sum := by
  obtain ⟨-, hedges, hneeds, -, htol, h0, hsink⟩ := make_eq_ok hmake
  have hname := costName_of_make hmake
  obtain ⟨u, v, hcheck, hinit, hrun⟩ := Engine.returns_solveProblem h
  obtain rfl := returns_check hcheck
  simp only [policies, build, returns_bind, Action.returns_problem, Action.returns_setModel]
    at hinit
  obtain ⟨_, _, ⟨rfl, rfl⟩, rfl⟩ := hinit
  obtain ⟨z, hz⟩ := exists_selects (K := K) hF
  have hz : Selects p.edges F z := hedges ▸ hz
  obtain ⟨c, hout, hle⟩ := (thrifty hsolver hflow hsink htol h0 (hname ▸ hedges ▸ hcosts) hzero
    (hneeds ▸ hlands)).share_le policies_committing.standard hsolver.truthful
    (fun h => (tidy.feasible h).1) (by simp [model, column]) (meets_model (hneeds ▸ hreq) hz) hrun ho
  have hstart : p.Tells entries p [] := ⟨rfl, [], hsink ▸ .ofList entries _⟩
  obtain ⟨js, ⟨-, es, hlists⟩, hpaid⟩ := Engine.billed_of_run hsolver.truthful tidy
    (p.records entries) policies_committing (by simp [model, column]) rfl hstart hrun ho
  have hbilled : t.problem.sink.Billed g costName entries (some (js.map p.model.costAt).sum) :=
    hlists.billed (by simp [hedges]) (by simp [model, column, Function.comp_def, hname])
  obtain ⟨chosen, hmem, hsinks, hsum⟩ := hbilled
  refine ⟨chosen, hmem, hsinks, ?_⟩
  obtain rfl := Option.some.inj ((hpaid.trans hsum).symm.trans hout)
  have hcost : p.model.costOf z = (F.map fun e => e.cost costName).sum :=
    hz.costOf (by simp [model, column, Function.comp_def, hname])
  exact le_twice hε (hcost ▸ hle)

end Runs

theorem across_shown_le_valued (hx : ∀ j, 0 ≤ x.getD j 0) (set : Finset Node) :
    across set (p.shown x) ≤ across set (p.valued x) := by
  rw [across_eq, across_eq]
  refine List.Sublist.sum_le_sum ((List.filter_sublist.filter _).map _) fun v hv => ?_
  obtain ⟨j, rfl⟩ := exists_getD hv
  exact hx j

theorem exists_across_eq (hx : ∀ j, x.getD j 0 = 0 ∨ x.getD j 0 = 1) (set : Finset Node) :
    ∃ n : ℤ, across set (p.valued x) = n := by
  have hmem : across set (p.valued x) ∈ (Int.castAddHom K).range := by
    rw [across_eq]
    refine AddSubgroup.list_sum_mem _ fun v hv => ?_
    obtain ⟨j, rfl⟩ := exists_getD hv
    rcases hx j with hj | hj <;> rw [hj]
    · exact ⟨0, Int.cast_zero⟩
    · exact ⟨1, Int.cast_one⟩
  obtain ⟨n, hn⟩ := hmem
  exact ⟨n, hn.symm⟩

theorem Settled.suffices [Backend K] {required : List ((Node × Node) × K)} (h : Settled p q m)
    (hg : p.graph.Valid) (hp : p.edges = p.graph.edges)
    (hreq : p.requirements = .ofList required)
    (hprune : p.requirements.prune p.graph.vertices = .ok p.pairs)
    (hwhole : ∀ e ∈ required, ∃ k : ℤ, e.2 = k) (h0 : 0 ≤ p.tolerance.epsilon)
    (h1 : p.tolerance.epsilon < 1) (hflow : (Backend.flow : FlowFinder Site K).Sound)
    {sol : Solution K} (hsol : m.solution = some sol)
    (hbinary : ∀ j, sol.values.getD j 0 = 0 ∨ sol.values.getD j 0 = 1) :
    p.requirements.Suffices fun set => across set (p.valued sol.values) := by
  intro u v w hw set hset
  have hnonneg (j : Nat) : 0 ≤ sol.values.getD j 0 := by
    rcases hbinary j with hj | hj <;> rw [hj]
    exact zero_le_one
  by_cases hpos : 0 < w
  · let side (w : Node) : Bool := decide (w ∈ set)
    have hside : side u ≠ side v := hset
    obtain ⟨pair, hpair, hle, hpart⟩ := Requirements.exists_pair
      (hreq ▸ Requirements.nodup_ofList required) hprune hw hpos hside
    have hacross := need_le_across h.2.2 hg hp h0 hflow hsol hpair hpart
    have hshown := across_shown_le_valued (p := p) hnonneg set
    obtain ⟨k, rfl⟩ : ∃ k : ℤ, w = k :=
      hwhole _ (Requirements.mem_ofList (hreq ▸ Requirements.mem_of_value? hw))
    obtain ⟨n, hn⟩ := exists_across_eq (p := p) hbinary set
    change (k : K) ≤ across set (p.valued sol.values)
    rw [hn] at hshown ⊢
    have hlt : (k : K) < n + 1 := by linarith
    have hlt : k < n + 1 := by exact_mod_cast hlt
    exact_mod_cast Int.lt_add_one_iff.mp hlt
  · exact (not_lt.mp hpos).trans (across_nonneg hnonneg set)

/-- So do all points of a run that has only points of zeros and ones. -/
theorem suffices_of_binary [Backend K] [Dice S K] {ε : K} {g : Graph K}
    {required : List ((Node × Node) × K)} {costName : String} {entries : List Choice}
    {strategy : Strategy} {dice : S} (hg : g.Valid)
    (hmake : make ε g (.ofList required) costName entries strategy dice = .ok p) (hε : ε < 1)
    (hwhole : ∀ e ∈ required, ∃ k : ℤ, e.2 = k) (hsolver : (Backend.solver : Solver K).Sound)
    (hflow : (Backend.flow : FlowFinder Site K).Sound)
    (hbinary : Engine.Lands policies p.start fun x => ∀ v ∈ x, v = 0 ∨ v = 1) :
    Engine.Lands policies p.start fun x =>
      (Requirements.ofList required).Suffices fun set => across set (p.valued x) := by
  obtain ⟨hgraph, hedges, hneeds, hprune, htol, h0, hsink⟩ := make_eq_ok hmake
  intro first t sol hreach hsol
  rw [← hneeds]
  exact (settled_of_solved hsolver hsink hreach).suffices (hgraph ▸ hg) (hgraph ▸ hedges) hneeds
    (hgraph ▸ hneeds ▸ hprune) hwhole (htol ▸ h0) (htol ▸ hε) hflow hsol
    (getD_of_forall (fun v : K => v = 0 ∨ v = 1) (.inl rfl) (hbinary hreach hsol))

theorem corner_suffices : (Requirements.ofList cornerNeeds).Suffices fun set =>
    ((corner.edges.eraseIdx 2).countP fun e => crosses set (e.name.u, e.name.v) : ℕ) := by
  have hends : (corner.edges.eraseIdx 2).map (fun e => (e.name.u, e.name.v)) =
      [(.number 1, .number 2), (.number 1, .number 2), (.number 2, .number 3)] := by decide +kernel
  intro u v w hw set hset
  have hcount := congrArg (List.countP (crosses set)) hends
  rw [List.countP_map] at hcount
  change w ≤ ((corner.edges.eraseIdx 2).countP (crosses set ∘ fun e => (e.name.u, e.name.v)) : ℕ)
  rw [hcount]
  have hmem := Requirements.mem_ofList (Requirements.mem_of_value? hw)
  simp only [cornerNeeds, List.mem_cons, Prod.mk.injEq, List.not_mem_nil, or_false] at hmem
  simp only [crosses, List.countP_cons, List.countP_nil]
  revert hset
  rcases hmem with ⟨⟨rfl, rfl⟩, rfl⟩ | ⟨⟨rfl, rfl⟩, rfl⟩ | ⟨⟨rfl, rfl⟩, rfl⟩ <;>
    by_cases h₁ : .number 1 ∈ set <;> by_cases h₂ : .number 2 ∈ set <;>
      by_cases h₃ : .number 3 ∈ set <;> norm_num [h₁, h₂, h₃]

theorem corner_within_twice :
    let _ := provingBackend [([0, 0, 0, 0], {}), ([1, 1, 0, 0], { atMost := [1] }),
      ([1, 0, 1, 0], { atMost := [1, 0] }), ([1, 1, 1, 0], { atMost := [0, 1, 1] }),
      ([1, 1, 1, 0], {})]
    let _ : Dice Unit ℚ := Dice.zero
    ∃ (p : SteinerNetwork ℚ Unit) (out : Outcome ℚ) (t : Run (SteinerNetwork ℚ Unit) ℚ)
      (F chosen : List (Edge ℚ)),
      make (1 / 10) corner (.ofList cornerNeeds) "cost" [] .first () = .ok p ∧
      Returns (Engine.solveProblem policies) { problem := p } out t ∧ out.status = .optimal ∧
      F.Sublist corner.edges ∧ (F.map fun e => e.cost "cost").sum = 7 ∧
      t.problem.sink.entries = chosen.map (fun e => .edge e.name) ∧
      (chosen.map fun e => e.cost "cost").sum ≤
        2 / (1 - 2 * (1 / 10)) * (F.map fun e => e.cost "cost").sum := by
  let points : List (List ℚ × Prices ℚ) :=
    [([0, 0, 0, 0], {}), ([1, 1, 0, 0], { atMost := [1] }), ([1, 0, 1, 0], { atMost := [1, 0] }),
      ([1, 1, 1, 0], { atMost := [0, 1, 1] }), ([1, 1, 1, 0], {})]
  let _ := provingBackend points
  let _ : Dice Unit ℚ := Dice.zero
  obtain ⟨p, hp, hrun⟩ := exists_ok
    (make (1 / 10) corner (.ofList cornerNeeds) "cost" [] .first ()) (solves policies) (by
      rw [make, prune_corner]
      decide +kernel)
  obtain ⟨out, t, h, ho⟩ := exists_answer hrun
  obtain ⟨hgraph, hedges, hneeds, hprune, htol, h0, hsink⟩ := make_eq_ok hp
  have hsolver : (Backend.solver : Solver ℚ).Faithful := Solver.proving_faithful _ _
  have hflow : (Backend.flow : FlowFinder Site ℚ).Maximal := FlowFinder.largest_maximal _
  have hbinary : Engine.Lands policies p.start fun x => ∀ v ∈ x, v = 0 ∨ v = 1 := by
    refine Engine.lands_of_solver _ policies_committing.standard (fun h => (tidy.feasible h).1)
      (fun s x c hx => ?_) (by simp)
    have hpoints : ∀ x ∈ points.map Prod.fst, ∀ v ∈ x, v = 0 ∨ v = 1 := by decide +kernel
    exact hpoints x (Solver.mem_of_proving hx)
  have hcrisp : Engine.Lands policies p.start (Engine.Crisp (1 / 10) [0]) :=
    hbinary.mono fun x hx => Engine.crisp_of_binary (by norm_num) (by simp) hx
  have hzero : Engine.Exactly policies p.start {0} := by
    refine hcrisp.exactly_of_commitHalf (policies_committing.restrained tidy) rfl fun hreach => ?_
    obtain ⟨sink, oracle, hq⟩ := (kept_of_rounding hsolver.sound hsink hreach).same
    rw [← htol, hq]
    rfl
  have hlands := suffices_of_binary corner_valid hp (by norm_num) (by decide +kernel) hsolver.sound
    hflow.sound hbinary
  obtain ⟨chosen, -, hsinks, hle⟩ := network_within_twice hp hsolver hflow (by norm_num)
    (by decide +kernel) h ho hzero hlands (List.eraseIdx_sublist corner.edges 2) corner_suffices
  exact ⟨p, out, t, _, chosen, hp, h, ho, List.eraseIdx_sublist corner.edges 2, by decide +kernel,
    hsinks, hle⟩

end SteinerNetwork

end LPRounding
