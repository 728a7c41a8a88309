import LPRounding.Proofs.Run.Refinement
import LPRounding.Proofs.Run.Commitment
import LPRounding.Proofs.SteinerNetwork.Feasible
import LPRounding.Proofs.BoundedTree.Answer
import LPRounding.Proofs.SteinerTree.Network
import LPRounding.Proofs.SteinerTree.Answer

/-!
The families of rows that row generation draws from: cuts between required pairs, vertex sets with
too much inside, and directed cuts of components. A row of each is added only for a set that the
family has one for, so a call refines the model with all of its rows.
-/

namespace LPRounding

set_option linter.unusedSectionVars false

variable {K S : Type} [Field K] [LinearOrder K] [IsStrictOrderedRing K] [FloorRing K]

namespace SteinerNetwork

/-- For every set between the ends of a pair of the forest, what must go across it. -/
def cuts (p : SteinerNetwork K S) : Set (Row K) :=
  { r | ∃ pair ∈ p.pairs, ∃ set : List Node, pair.1 ∈ set ∧ pair.2 ∉ set ∧
    r = cover .lower (p.requirements.need pair.1 pair.2) 0 (p.crossing set) }

theorem generates [Backend K] [Dice S K] (hflow : (Backend.flow : FlowFinder Site K).Maximal) :
    Oracle.Generates (S := S) home checker tolerance cuts
      fun p : SteinerNetwork K S => 0 ≤ p.tolerance.epsilon where
  feasible := rfl
  separate := rfl
  member := by
    rintro q m v h0 ⟨⟨n, cs, hprep, pair, hpair, hv⟩, -⟩
    obtain ⟨entries, -, hprep⟩ := ok_bind_iff.mp hprep
    obtain ⟨rfl, rfl⟩ := Prod.mk.inj (Except.ok.inj hprep)
    obtain ⟨hside, hnear, hfar⟩ := separates_of_measure (p := q) h0 hflow hv
    refine ⟨pair, hpair, v.witness, hnear, hfar, ?_⟩
    rw [← hside]
    rfl
  sane_set _ _ := Iff.rfl
  family_set _ _ := rfl
  row_set _ _ _ := rfl
  get_set _ _ := rfl
  set_get _ := rfl
  set_set _ _ _ := rfl

/-- No run changes the tolerance, whatever policies stand beside the rounding rule. -/
theorem nonneg_of_reached [Backend K] [Dice S K] {pol : Policies (SteinerNetwork K S) K}
    {s t : Run (SteinerNetwork K S) K} {stage : Engine.Stage K}
    (h0 : 0 ≤ s.problem.tolerance.epsilon) (hm : ∀ c ∈ s.lp.columns, c.fixed = none)
    (ht : taken s.trace = []) (ha : pol.Aloof home.Apart)
    (h : Engine.Reached pol RoundRule.commitHalf.apply s stage t) :
    0 ≤ t.problem.tolerance.epsilon := by
  have hr : Engine.Records (P := SteinerNetwork K S) (K := K) RoundRule.commitHalf.apply home.Apart
      fun q _ => 0 ≤ q.tolerance.epsilon := by
    refine ⟨RoundRule.commits_commitHalf, ?_, ?_⟩
    · rintro q _ - ⟨o, rfl⟩ hq
      exact hq
    · intro s t j _ hc hq
      obtain ⟨e, -, rfl⟩ := returns_commit hc
      exact ⟨hq, rfl, rfl⟩
  exact Engine.reached_keeps hr id ha (Engine.account_start hm ht h0) h

end SteinerNetwork

namespace BoundedTree

/-- For every set of vertices, one less inside than it has members. -/
def subtours (p : BoundedTree K S) : Set (Row K) :=
  { r | ∃ set : List Node, set ≠ [] ∧ set.Nodup ∧ set ⊆ p.graph.vertices ∧
    r = cover .upper 0 ((set.length : K) - 1) (p.within set) }

/-- A problem over the edges of a graph, as no step of a run makes it another one. -/
structure Sane (p : BoundedTree K S) : Prop where
  graph : p.graph.Valid
  edges : p.edges = p.graph.edges
  epsilon : 0 ≤ p.tolerance.epsilon

theorem Sane.of_measure [Backend K] {p : BoundedTree K S} (h : p.Sane)
    (hflow : (Backend.flow : FlowFinder Site K).Sound) {entries : List (Edge K × K)}
    (hentries : ∀ e ∈ entries, e.1 ∈ p.edges ∧ 0 ≤ e.2) {values : List K} {v : Node}
    {viol : Violation K Node} (hv : v ∈ p.graph.vertices)
    (hm : p.measure ⟨values, p.auxiliary entries⟩ v = .ok viol)
    (hlarge : p.tolerance.epsilon < viol.magnitude) :
    viol.side = (viol.witness.length : K) - 1 ∧ viol.witness ≠ [] ∧ viol.witness.Nodup ∧
      viol.witness ⊆ p.graph.vertices := by
  obtain ⟨cut, hcut, hm⟩ := ok_bind_iff.mp hm
  obtain rfl := Except.ok.inj hm
  have hforced := forced_release (v := v)
    (fun e he => h.graph.edge_ends (h.edges ▸ (hentries e he).1)) hv
  obtain ⟨hasked, -, hreach⟩ := FlowFinder.of_siteCut hforced.valid hcut
  have hcarries := hflow _ _ _ hasked
  refine ⟨by simp, fun hnil => ?_, Cut.nodup_nodes (hreach ▸ hforced.valid.nodup_reachable _ _ _),
    fun w hw => ?_⟩
  · -- the empty set is violated by one, so the tolerance is below one
    have hnil : cut.nodes = [] := hnil
    have hone : p.tolerance.epsilon < 1 := by
      simpa [hnil, inside, sum_filterMap_ite] using hlarge
    have hin := hforced.mem_nodes hv (fun e he => (hentries e he).2) hflow h.epsilon hone hcut
    rw [hnil] at hin
    cases hin
  · have hw := Cut.mem_nodes.mp hw
    rw [hreach, hcarries.mem_reachable hforced.valid h.epsilon hasked.2.1, hforced.mem] at hw
    simpa using hw.1

theorem generates [Backend K] [Dice S K] (hflow : (Backend.flow : FlowFinder Site K).Sound) :
    Oracle.Generates (S := S) home checker tolerance subtours Sane where
  feasible := rfl
  separate := rfl
  member := by
    rintro q m v h ⟨⟨n, cs, hprep, c, hc, hv⟩, hlarge⟩
    obtain ⟨values, -, hprep⟩ := ok_bind_iff.mp hprep
    obtain ⟨rfl, rfl⟩ := Prod.mk.inj (Except.ok.inj hprep)
    have hentries : ∀ e ∈ (q.edges.zip values).filter fun e => q.tolerance.above e.2 0,
        e.1 ∈ q.edges ∧ 0 ≤ e.2 := by
      intro e he
      obtain ⟨he, habove⟩ := List.mem_filter.mp he
      have hlt : q.tolerance.epsilon < e.2 := by simpa using habove
      exact ⟨(List.of_mem_zip he).1, h.epsilon.trans hlt.le⟩
    obtain ⟨hside, hne, hnodup, hsub⟩ := h.of_measure hflow hentries hc hv hlarge
    refine ⟨v.witness, hne, hnodup, hsub, ?_⟩
    rw [← hside]
    rfl
  sane_set _ _ := ⟨fun h => ⟨h.1, h.2, h.3⟩, fun h => ⟨h.1, h.2, h.3⟩⟩
  family_set _ _ := rfl
  row_set _ _ _ := rfl
  get_set _ _ := rfl
  set_get _ := rfl
  set_set _ _ _ := rfl

theorem sane_of_make {ε : K} {g : Graph K} {bounds : List (Node × Int)} {costName : String}
    {entries : List Choice} {strategy : Strategy} {dice : S} {p : BoundedTree K S} (hg : g.Valid)
    (h : make ε g bounds costName entries strategy dice = .ok p) : p.Sane := by
  obtain ⟨hgraph, hedges, -, htol, h0, -⟩ := make_eq_ok h
  exact ⟨hgraph ▸ hg, hgraph ▸ hedges, htol ▸ h0⟩

/-- No run leaves the problems over a graph, whatever policies stand beside its rounding rule. -/
theorem sane_of_reached [Backend K] [Dice S K] {pol : Policies (BoundedTree K S) K}
    {s t : Run (BoundedTree K S) K} {stage : Engine.Stage K} (hs : s.problem.Sane)
    (hm : ∀ c ∈ s.lp.columns, c.fixed = none) (ht : taken s.trace = []) (ha : pol.Aloof home.Apart)
    (h : Engine.Reached pol RoundRule.commitOne.apply s stage t) : t.problem.Sane := by
  have hr : Engine.Records (P := BoundedTree K S) (K := K) RoundRule.commitOne.apply home.Apart
      fun q _ => q.Sane := by
    refine ⟨RoundRule.commits_commitOne, ?_, ?_⟩
    · rintro q _ - ⟨o, rfl⟩ hq
      exact ⟨hq.graph, hq.edges, hq.epsilon⟩
    · intro s t j _ hc hq
      obtain ⟨e, -, rfl⟩ := returns_commit hc
      exact ⟨⟨hq.graph, hq.edges, hq.epsilon⟩, rfl, rfl⟩
  exact Engine.reached_keeps hr (fun hq => ⟨hq.graph, hq.edges, hq.epsilon⟩) ha
    (Engine.account_start hm ht hs) h

end BoundedTree

namespace SteinerTree

theorem generates [Backend K] [Dice S K] (hflow : (Backend.flow : FlowFinder Site K).Maximal) :
    Oracle.Generates (S := S) home checker tolerance directedCuts
      fun p : SteinerTree K S => 0 ≤ p.tolerance.epsilon where
  feasible := rfl
  separate := rfl
  member := by
    rintro q m v h0 ⟨hfinds, -⟩
    exact cutRow_mem h0 hflow hfinds
  sane_set _ _ := Iff.rfl
  family_set _ _ := rfl
  row_set _ _ _ := rfl
  get_set _ _ := rfl
  set_get _ := rfl
  set_set _ _ _ := rfl

theorem tolerance_of_generate {p q : SteinerTree K S} (h : p.generate = .ok q) :
    q.tolerance = p.tolerance := by
  unfold SteinerTree.generate at h
  split at h
  · obtain rfl := Except.ok.inj h
    rfl
  · have hpriced {m : Metric K} (h : (Component.all p.tolerance m p.place p.terminals p.steiner
        p.limit >>= fun cs => .ok { p with metric := some m, components := cs }) = .ok q) :
        q.tolerance = p.tolerance := by
      obtain ⟨_, -, h⟩ := ok_bind_iff.mp h
      obtain rfl := Except.ok.inj h
      rfl
    cases hmetric : p.metric with
    | some m =>
      rw [hmetric] at h
      exact hpriced h
    | none =>
      rw [hmetric] at h
      obtain ⟨_, -, h⟩ := ok_bind_iff.mp h
      exact hpriced h

theorem tolerance_of_mergeAll {sink : Node} {sources : List Node} {p q : SteinerTree K S}
    (h : Returns (sources.forM fun v => do merge sink v; retire v) p () q) :
    q.tolerance = p.tolerance := by
  induction sources generalizing p with
  | nil =>
    obtain ⟨-, rfl⟩ := returns_pure.mp h
    rfl
  | cons v vs ih =>
    obtain ⟨_, hv, h⟩ := returns_forM_cons.mp h
    obtain ⟨_, _, hm, hr⟩ := returns_bind.mp hv
    obtain ⟨_, -, rfl⟩ := returns_merge hm
    obtain ⟨-, rfl⟩ := returns_retire hr
    exact (ih h).trans rfl

/-- No round of a dependent run changes the tolerance. -/
theorem nonneg_of_turns [Backend K] [Dice S K] {s t : Run (SteinerTree K S) K} {n : Nat}
    (h0 : 0 ≤ s.problem.tolerance.epsilon) (h : Engine.Turns policies s (.built n) t) :
    0 ≤ t.problem.tolerance.epsilon := by
  have hsolve {s t : Run (SteinerTree K S) K} {st : Status} (h0 : 0 ≤ s.problem.tolerance.epsilon)
      (h : Returns SolveRule.generating.apply s st t) : 0 ≤ t.problem.tolerance.epsilon :=
    Oracle.generating_problem (h := home) (k := checker) rfl rfl
      (fun q => 0 ≤ q.tolerance.epsilon) (fun _ _ => id) h0 h
  have hcarries : Engine.Carries (policies (K := K) (S := S)) pick
      fun q => 0 ≤ q.tolerance.epsilon := by
    refine ⟨hsolve, hsolve, fun h0 h => ?_, fun h0 h => ?_, fun h => ?_⟩
    · obtain ⟨c, dice, _, -, h⟩ := returns_pick h
      obtain ⟨r, hr, rfl⟩ := returns_accept h
      exact (tolerance_of_mergeAll hr).symm ▸ h0
    · simp only [policies, build, returns_bind, Action.returns_problem, returns_lift,
        returns_modify] at h
      obtain ⟨_, _, ⟨rfl, rfl⟩, q, _, ⟨hq, rfl⟩, rfl⟩ := h
      exact (tolerance_of_generate hq).symm ▸ h0
    · simp only [policies, returns_bind, Action.returns_problem, returns_pure] at h
      obtain ⟨_, _, ⟨rfl, rfl⟩, -, rfl⟩ := h
      rfl
  exact hcarries.of_turns rfl h0 h

end SteinerTree

/-- Every call of row generation that ends, from whatever state of a run, has added rows of the
family alone. What it says of the model at hand, that it has no point or what its points cost at
least, is true of the model with the whole family. -/
theorem generation_refines_family [Backend K] [Dice S K]
    (hsolver : (Backend.solver : Solver K).Faithful)
    (hflow : (Backend.flow : FlowFinder Site K).Maximal) :
    (∀ (s t : Run (SteinerNetwork K S) K) (st : Status), 0 ≤ s.problem.tolerance.epsilon →
      Returns SolveRule.generating.apply s st t →
      Oracle.Refines SteinerNetwork.home SteinerNetwork.cuts s st t) ∧
    (∀ (s t : Run (BoundedTree K S) K) (st : Status), s.problem.Sane →
      Returns SolveRule.generating.apply s st t →
      Oracle.Refines BoundedTree.home BoundedTree.subtours s st t) ∧
    ∀ (s t : Run (SteinerTree K S) K) (st : Status), 0 ≤ s.problem.tolerance.epsilon →
      Returns SolveRule.generating.apply s st t →
      Oracle.Refines SteinerTree.home SteinerTree.directedCuts s st t := by
  refine ⟨fun s t st h0 h => ?_, fun s t st hs h => ?_, fun s t st h0 h => ?_⟩
  · exact (SteinerNetwork.generates hflow).refines hsolver h0 h
  · exact (BoundedTree.generates hflow.sound).refines hsolver hs h
  · exact (SteinerTree.generates hflow).refines hsolver h0 h

@[reducible] noncomputable def provingBackend (points : List (List ℚ × Prices ℚ)) : Backend ℚ where
  solver := .proving points []
  flow := .largest Augment.finder
  passes := 5

def generatesTo {P : Type} [Roundable P K] [Backend K] (s : Run P K) (n : Nat) : Bool :=
  match SolveRule.generating.apply s with
  | .ok .optimal t => t.lp.rows.length = n
  | _ => false

theorem exists_generated {P : Type} [Roundable P K] [Backend K] {s : Run P K} {n : Nat}
    (h : generatesTo s n = true) :
    ∃ t, Returns SolveRule.generating.apply s .optimal t ∧ t.lp.rows.length = n := by
  unfold generatesTo at h
  split at h
  · next t ht => exact ⟨t, ht, of_decide_eq_true h⟩
  · cases h

def pendant : Graph ℚ where
  vertices := [.number 1, .number 2, .number 3, .number 4]
  links := [
    { tail := .number 1, head := .number 2, key := 0, attrs := [("cost", 1)] },
    { tail := .number 1, head := .number 3, key := 0, attrs := [("cost", 1)] },
    { tail := .number 2, head := .number 3, key := 0, attrs := [("cost", 1)] },
    { tail := .number 3, head := .number 4, key := 0, attrs := [("cost", 5)] }]

theorem pendant_valid : pendant.Valid :=
  ⟨by decide, by decide, by decide⟩

theorem generation_refined :
    let _ : Dice Unit ℚ := Dice.zero
    (let _ := provingBackend [([0, 0, 0, 0], {}), ([1, 1, 0, 0], { atMost := [1] }),
        ([1, 0, 1, 0], { atMost := [1, 0] }), ([1, 1, 1, 0], { atMost := [0, 1, 1] })]
      ∃ s t : Run (SteinerNetwork ℚ Unit) ℚ, Returns SolveRule.generating.apply s .optimal t ∧
        t.lp.rows.length = 3 ∧
        Oracle.Refines SteinerNetwork.home SteinerNetwork.cuts s .optimal t) ∧
    (let _ := provingBackend [([1, 1, 1, 0], { equal := [-5] }),
        ([1, 1, 0, 1], { atMost := [4], equal := [-5] })]
      ∃ s t : Run (BoundedTree ℚ Unit) ℚ, Returns SolveRule.generating.apply s .optimal t ∧
        t.lp.rows.length = 2 ∧ Oracle.Refines BoundedTree.home BoundedTree.subtours s .optimal t) ∧
    let _ := provingBackend [([0, 0], {}), ([1, 0], { atMost := [3] })]
    ∃ s t : Run (SteinerTree ℚ Unit) ℚ, Returns SolveRule.generating.apply s .optimal t ∧
      t.lp.rows.length = 1 ∧
      Oracle.Refines SteinerTree.home SteinerTree.directedCuts s .optimal t := by
  let _ : Dice Unit ℚ := Dice.zero
  refine ⟨?_, ?_, ?_⟩
  · let _ := provingBackend [([0, 0, 0, 0], {}), ([1, 1, 0, 0], { atMost := [1] }),
      ([1, 0, 1, 0], { atMost := [1, 0] }), ([1, 1, 1, 0], { atMost := [0, 1, 1] })]
    obtain ⟨p, hp, hrun⟩ := exists_ok
      (SteinerNetwork.make (1 / 10) SteinerNetwork.corner (.ofList SteinerNetwork.cornerNeeds)
        "cost" [] .first ())
      (fun p => generatesTo { problem := p, lp := p.model } 3) (by
        rw [SteinerNetwork.make, SteinerNetwork.prune_corner]
        decide +kernel)
    obtain ⟨t, h, hrows⟩ := exists_generated hrun
    obtain ⟨-, -, -, -, htol, h0, -⟩ := SteinerNetwork.make_eq_ok hp
    exact ⟨_, t, h, hrows, (generation_refines_family (Solver.proving_faithful _ _)
      (FlowFinder.largest_maximal _)).1 _ _ _ (htol ▸ h0) h⟩
  · let _ := provingBackend [([1, 1, 1, 0], { equal := [-5] }),
      ([1, 1, 0, 1], { atMost := [4], equal := [-5] })]
    obtain ⟨p, hp, hrun⟩ := exists_ok
      (BoundedTree.make (1 / 10) pendant [] "cost" [] .first ())
      (fun p => generatesTo { problem := p, lp := p.model } 2) (by decide +kernel)
    obtain ⟨t, h, hrows⟩ := exists_generated hrun
    exact ⟨_, t, h, hrows, (generation_refines_family (Solver.proving_faithful _ _)
      (FlowFinder.largest_maximal _)).2.1 _ _ _ (BoundedTree.sane_of_make pendant_valid hp) h⟩
  · let _ := provingBackend [([0, 0], {}), ([1, 0], { atMost := [3] })]
    obtain ⟨p, -, hq⟩ := exists_ok
      (SteinerTree.make (1 / 10) SteinerTree.broom [.number 1, .number 4] none "cost" 3 [] .first
        () ())
      (fun p => p.generate.toOption.any fun q : SteinerTree ℚ Unit =>
        decide (0 ≤ q.tolerance.epsilon) &&
          generatesTo { problem := q, lp := SteinerTree.model q.components } 1) (by decide +kernel)
    obtain ⟨q, -, hrun⟩ := exists_ok p.generate _ hq
    obtain ⟨h0, hrun⟩ := Bool.and_eq_true_iff.mp hrun
    obtain ⟨t, h, hrows⟩ := exists_generated hrun
    exact ⟨_, t, h, hrows, (generation_refines_family (Solver.proving_faithful _ _)
      (FlowFinder.largest_maximal _)).2.2 _ _ _ (of_decide_eq_true h0) h⟩

end LPRounding
