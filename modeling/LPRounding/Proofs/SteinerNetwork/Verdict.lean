import LPRounding.Proofs.Run.Verdict
import LPRounding.Proofs.SteinerNetwork.Cost
import LPRounding.Proofs.SteinerNetwork.Feasible

/-!
Steiner networks: the verdict of the oracle on a point. A maximum flow is worth what every cut has
room for, and a cut of the sites has the room of the edges above the tolerance across a set of
vertices; so measuring the pairs of the forest decides about all sets between all required pairs.
-/

namespace LPRounding.SteinerNetwork

set_option linter.unusedSectionVars false

variable {K S : Type} [Field K] [LinearOrder K] [IsStrictOrderedRing K] [FloorRing K]
  {p : SteinerNetwork K S}

theorem exists_make {ε : K} {g : Graph K} (hk : g.kind ≠ .directed) (h0 : 0 ≤ ε)
    (required : Requirements K) (costName : String) (entries : List Choice) (strategy : Strategy)
    (dice : S) : ∃ p, make ε g required costName entries strategy dice = .ok p := by
  obtain ⟨pairs, hp⟩ := required.exists_pruneBy Weighted.maximumForest g.vertices
  have htol : Tolerance.ofEpsilon ε = .ok ⟨ε⟩ := Tolerance.ofEpsilon_eq_ok.mpr ⟨h0, rfl⟩
  rw [make, if_neg hk, required.prune_eq, hp, htol]
  exact ⟨_, rfl⟩

theorem of_mem_shown_graph (hp : p.edges = p.graph.edges) (h0 : 0 ≤ p.tolerance.epsilon)
    (x : List K) : ∀ e ∈ p.shown x, e.1 ∈ p.graph.edges ∧ 0 ≤ e.2 := by
  intro e he
  obtain ⟨he, hlt⟩ := of_mem_shown he
  exact ⟨hp ▸ he, h0.trans hlt.le⟩

theorem exists_prepare {m : Model K} {x : Solution K} (hx : m.solution = some x)
    (hm : m.columns.length = p.edges.length) (hl : x.values.length = p.edges.length) :
    p.prepare m = .ok (joined p.emptyNetwork (p.shown x.values), p.pairs) := by
  obtain ⟨entries, hentries⟩ : ∃ entries, p.point m = .ok entries := by
    refine exists_mapM _ _ fun e he => ⟨(e.1, x.values.getD e.2 0), ?_⟩
    exact ok_bind_iff.mpr ⟨_, Model.exists_values hx (hl.trans hm.symm) hm.symm e he, rfl⟩
  have hprep : p.prepare m = .ok _ := ok_bind_iff.mpr ⟨entries, hentries, rfl⟩
  obtain ⟨hn, -⟩ := prepare_eq_ok hx hprep
  rw [hprep, ← hn]

section Measured

variable [Backend K] {entries : List (Edge K × K)} {pair : Node × Node}
  (hg : p.graph.Valid) (he : ∀ e ∈ entries, e.1 ∈ p.graph.edges ∧ 0 ≤ e.2)

include hg he

theorem across_sdiff (set : Finset Node) :
    across (p.graph.vertices.toFinset \ set) entries = across set entries := by
  rw [across, across]
  congr 1
  refine List.map_congr_left fun e hm => ?_
  obtain ⟨hu, hv⟩ := hg.edge_ends (he e hm).1
  have hcross : crosses (p.graph.vertices.toFinset \ set) (e.1.name.u, e.1.name.v) =
      crosses set (e.1.name.u, e.1.name.v) := by
    simp only [crosses, Finset.mem_sdiff, List.mem_toFinset, hu, hv, true_and]
    by_cases h₁ : e.1.name.u ∈ set <;> by_cases h₂ : e.1.name.v ∈ set <;> simp [h₁, h₂]
  rw [hcross]

theorem le_across_of_sets {u v : Node} (hu : u ∈ p.graph.vertices) {a : K}
    (h : ∀ set : Finset Node, u ∈ set → v ∉ set → a ≤ across set entries) {set : Finset Node}
    (hset : decide (u ∈ set) ≠ decide (v ∈ set)) : a ≤ across set entries := by
  by_cases hus : u ∈ set
  · exact h set hus (by simpa [hus] using hset)
  · have hvs : v ∈ set := by simpa [hus] using hset
    rw [← across_sdiff hg he]
    exact h _ (Finset.mem_sdiff.mpr ⟨List.mem_toFinset.mpr hu, hus⟩)
      fun hm => (Finset.mem_sdiff.mp hm).2 hvs

theorem exists_measure (h₁ : pair.1 ∈ p.graph.vertices) (h₂ : pair.2 ∈ p.graph.vertices)
    (hne : pair.1 ≠ pair.2) : ∃ v, p.measure (joined p.emptyNetwork entries) pair = .ok v := by
  obtain ⟨hs, hmem⟩ := p.spread_joined entries
  have hbounded (u : Site) :
      (joined p.emptyNetwork entries).link? u (.vertex pair.2) ≠ some none := by
    rcases hs.link u (.vertex pair.2) with ⟨hl, -⟩ | hl <;> simp [hl]
  obtain ⟨cut, hcut⟩ := FlowFinder.exists_siteCut Backend.flow hs.valid
    ((hmem (.vertex pair.1)).mpr (.inl ⟨_, h₁, rfl⟩))
    ((hmem (.vertex pair.2)).mpr (.inl ⟨_, h₂, rfl⟩)) (by simpa using hne) hbounded
    p.tolerance.epsilon
  exact ⟨_, ok_bind_iff.mpr ⟨cut, hcut, rfl⟩⟩

/-- The magnitude is what the least of the sets that part the pair misses. -/
theorem measure_le_iff (hflow : (Backend.flow : FlowFinder Site K).Maximal)
    {v : Violation K (Node × Node)} (hv : p.measure (joined p.emptyNetwork entries) pair = .ok v)
    (a : K) : v.magnitude ≤ a ↔ ∀ set : Finset Node,
      decide (pair.1 ∈ set) ≠ decide (pair.2 ∈ set) →
        p.requirements.need pair.1 pair.2 - a ≤ across set entries := by
  refine ⟨fun hle set hset => ?_, fun hall => ?_⟩
  · have := le_across hg hflow.sound he hv hset
    linarith
  obtain ⟨hs, hmem⟩ := p.spread_joined entries
  obtain ⟨cut, hcut, hv⟩ := ok_bind_iff.mp hv
  obtain rfl := Except.ok.inj hv
  obtain ⟨hasked, hvalue, -⟩ := FlowFinder.of_siteCut hs.valid hcut
  have hin {w : Node} (hw : .vertex w ∈ (joined p.emptyNetwork entries).vertices) :
      w ∈ p.graph.vertices := by
    rcases (hmem _).mp hw with ⟨u, hu, heq⟩ | ⟨e, hm, heq⟩
    · exact Site.vertex.inj heq ▸ hu
    · obtain ⟨hu, hv⟩ := hg.edge_ends (he e hm).1
      rcases heq with heq | heq
      · exact Site.vertex.inj heq ▸ hu
      · exact Site.vertex.inj heq ▸ hv
  have hle : p.requirements.need pair.1 pair.2 - a ≤ cut.value := by
    rw [hvalue, (hflow _ _ _ hasked).le_value_iff hs.valid hasked.2.2.2.1 hasked.2.1]
    intro near _ hsn htn
    let set := p.graph.vertices.toFinset.filter fun w => .vertex w ∈ near
    have hset (w : Node) (hw : w ∈ p.graph.vertices) :
        .vertex w ∈ near ↔ decide (w ∈ set) = true := by simp [set, hw]
    rw [cutRoom_joined hg he set hset]
    refine hall set ?_
    have hs : pair.1 ∈ set := by simpa [set, hin hasked.2.1] using hsn
    have ht : pair.2 ∉ set := by simpa [set, hin hasked.2.2.1] using htn
    simp [hs, ht]
  show p.requirements.need pair.1 pair.2 - cut.value ≤ a
  linarith

end Measured

section Sets

variable [Backend K] {x : List K} (hg : p.graph.Valid) (hp : p.edges = p.graph.edges)
  (h0 : 0 ≤ p.tolerance.epsilon) (hn : (p.requirements.entries.map Prod.fst).Nodup)
  (hprune : p.requirements.prune p.graph.vertices = .ok p.pairs)
  (hver : ∀ e ∈ p.requirements.entries, e.1.1 ∈ p.graph.vertices ∧ e.1.2 ∈ p.graph.vertices)

include hg hp h0 hn hprune hver

theorem exists_measure_of_mem (x : List K) {pair : Node × Node} (hm : pair ∈ p.pairs) :
    ∃ v, p.measure (joined p.emptyNetwork (p.shown x)) pair = .ok v := by
  obtain ⟨hne, hpos⟩ := Requirements.of_mem_pruneBy hn (Weighted.maximum_maximumForest _)
    (p.requirements.prune_eq _ ▸ hprune) hm
  have hends : pair.1 ∈ p.graph.vertices ∧ pair.2 ∈ p.graph.vertices := by
    obtain ⟨e, he, -, heq | heq⟩ := Requirements.exists_entry hpos
    · simpa [heq] using hver e he
    · simpa [heq, and_comm] using hver e he
  exact exists_measure hg (of_mem_shown_graph hp h0 x) hends.1 hends.2 hne

/-- No pair of the forest is violated if and only if no set between the ends of an entry is crossed
by too little. -/
theorem clear_iff (hflow : (Backend.flow : FlowFinder Site K).Maximal) :
    Search.Clear p.tolerance (p.measure (joined p.emptyNetwork (p.shown x))) p.pairs ↔
      ∀ e ∈ p.requirements.entries, e.1.1 ≠ e.1.2 → 0 < p.requirements.need e.1.1 e.1.2 →
        ∀ set : Finset Node, e.1.1 ∈ set → e.1.2 ∉ set →
          p.requirements.need e.1.1 e.1.2 - p.tolerance.epsilon ≤ across set (p.shown x) := by
  have hforest := Weighted.maximum_maximumForest (p.requirements.weighted p.graph.vertices)
  have hprune' := p.requirements.prune_eq _ ▸ hprune
  have hshown := of_mem_shown_graph hp h0 x
  constructor
  · intro hclear e _ _ hpos set hu hv
    let side (w : Node) : Bool := decide (w ∈ set)
    have hside : side e.1.1 ≠ side e.1.2 := by simp [side, hu, hv]
    obtain ⟨pair, hm, hle, hcross⟩ :=
      Requirements.exists_pair_of_need hn hforest hprune' hpos hside
    obtain ⟨v, hmeasure, hmag⟩ := hclear pair hm
    have := (measure_le_iff hg hshown hflow hmeasure _).mp hmag set hcross
    linarith
  · intro hall pair hm
    obtain ⟨hne, hpos⟩ := Requirements.of_mem_pruneBy hn hforest hprune' hm
    obtain ⟨v, hv⟩ := exists_measure_of_mem hg hp h0 hn hprune hver x hm
    refine ⟨v, hv, (measure_le_iff hg hshown hflow hv _).mpr fun set hset => ?_⟩
    -- the entry may name the pair from either end
    obtain ⟨⟨⟨a, b⟩, w⟩, he, -, heq | heq⟩ := Requirements.exists_entry hpos <;>
      obtain ⟨rfl, rfl⟩ := Prod.mk.inj heq
    · exact le_across_of_sets hg hshown (hver _ he).1 (hall _ he hne hpos) hset
    · rw [p.requirements.need_comm] at hpos ⊢
      exact le_across_of_sets hg hshown (hver _ he).1 (hall _ he hne.symm hpos) hset.symm

end Sets

/-- A check of a point always ends. It accepts the point if and only if every set between the ends
of a required pair is crossed by enough, up to the tolerance, of the edges above the tolerance; all
edges then carry as much across it. If it does not, it records a violation of a pair of the forest,
with a set between its ends, and the row that is added next is over the columns that cross the
set. -/
theorem feasible_iff_sets_crossed [Backend K] [Dice S K] {ε : K} {g : Graph K}
    {required : List ((Node × Node) × K)} (hg : g.Valid) (hk : g.kind ≠ .directed) (h0 : 0 ≤ ε)
    (hver : ∀ e ∈ required, e.1.1 ∈ g.vertices ∧ e.1.2 ∈ g.vertices)
    (hflow : (Backend.flow : FlowFinder Site K).Maximal) (costName : String)
    (entries : List Choice) (strategy : Strategy) (dice : S) :
    let r := Requirements.ofList required
    ∃ p, make ε g r costName entries strategy dice = .ok p ∧
      ∀ (s : Run (SteinerNetwork K S) K) (x : Solution K),
        (∃ sink oracle, s.problem = { p with sink, oracle }) → s.lp.solution = some x →
        s.lp.columns.length = g.edges.length → x.values.length = g.edges.length →
        (∀ j, 0 ≤ x.values.getD j 0) →
        ∃ b t, Returns Roundable.feasible s b t ∧
          (b = true ↔ ∀ e ∈ r.entries, e.1.1 ≠ e.1.2 → 0 < r.need e.1.1 e.1.2 →
            ∀ set : Finset Node, e.1.1 ∈ set → e.1.2 ∉ set →
              r.need e.1.1 e.1.2 - ε ≤ across set (p.shown x.values)) ∧
          (b = true → ∀ e ∈ r.entries, e.1.1 ≠ e.1.2 → 0 < r.need e.1.1 e.1.2 →
            ∀ set : Finset Node, e.1.1 ∈ set → e.1.2 ∉ set →
              r.need e.1.1 e.1.2 - ε ≤ across set (p.valued x.values)) ∧
          (b = false → ∃ v u row, t.problem.oracle.violation = some v ∧
            v.candidate ∈ p.pairs ∧ v.side = r.need v.candidate.1 v.candidate.2 ∧
            v.candidate.1 ∈ v.witness ∧ v.candidate.2 ∉ v.witness ∧
            Returns Roundable.separate t s.lp.rows.length u ∧
            u.lp = { s.lp with rows := s.lp.rows ++ [row] } ∧ row.bound = ⟨.lower, v.side, 0⟩ ∧
            row.Sums fun j => ∃ e, g.edges[j]? = some e ∧
              crosses v.witness.toFinset (e.name.u, e.name.v) = true) := by
  intro r
  obtain ⟨p, hmake⟩ := exists_make hk h0 r costName entries strategy dice
  obtain ⟨rfl, hedges, hreq, hprune, rfl, -, -⟩ := make_eq_ok hmake
  refine ⟨p, hmake, ?_⟩
  have hn : (r.entries.map Prod.fst).Nodup := Requirements.nodup_ofList required
  have hver : ∀ e ∈ r.entries, e.1.1 ∈ p.graph.vertices ∧ e.1.2 ∈ p.graph.vertices :=
    fun e he => hver e (Requirements.mem_ofList he)
  rw [← hedges]
  rw [← hreq] at hn hver hprune ⊢
  rintro s x ⟨sink, oracle, hs⟩ hx hm hl hnonneg
  have hprep : checker.prepare s.problem s.lp =
      .ok (joined p.emptyNetwork (p.shown x.values), p.pairs) := by
    rw [hs]
    exact exists_prepare hx hm hl
  have hcheck : checker.check s.problem = p.measure := by
    rw [hs]
    rfl
  have htol : s.problem.tolerance = p.tolerance := by rw [hs]
  obtain ⟨b, t, ht, hb, hreject⟩ := Oracle.exists_verdict home checker tolerance
    (fun _ _ => rfl) (fun _ _ _ => rfl) hprep
    (hcheck ▸ fun pair => exists_measure_of_mem hg hedges h0 hn hprune hver x.values)
  rw [htol, hcheck, clear_iff hg hedges h0 hn hprune hver hflow] at hb
  refine ⟨b, t, ht, hb, fun htrue e he hne hpos set hu hv => ?_, fun hfalse => ?_⟩
  · exact (hb.mp htrue e he hne hpos set hu hv).trans (across_shown_le_valued hnonneg set)
  · obtain ⟨v, hrec, ⟨pair, hpair, hv⟩, -, u, hu, hadded⟩ := hreject hfalse
    rw [hcheck] at hv
    obtain ⟨hside, hnear, hfar⟩ := separates_of_measure h0 hflow hv
    obtain ⟨cut, -, hval⟩ := ok_bind_iff.mp hv
    have hcand : v.candidate = pair := by rw [← Except.ok.inj hval]
    rw [← hcand] at hpair hside hnear hfar
    refine ⟨v, u, p.cutRow v, hrec, hpair, hside, hnear, hfar, hu, ?_, rfl, ?_⟩
    · rw [hadded, hs]
      rfl
    · have hsums := sums_cover .lower v.side 0
        (fun e : Edge K => (e.name.u ∈ v.witness) != (e.name.v ∈ v.witness)) p.edges
      simpa [crosses, cutRow, crossing] using hsums

def cornerPoint : List ℚ := [1, 3 / 4, 0, 1 / 20]

def cornerRun (p : SteinerNetwork ℚ Unit) : Run (SteinerNetwork ℚ Unit) ℚ where
  problem := p
  lp := { p.model with solution := some ⟨cornerPoint, 0⟩ }

theorem corner_verdict :
    let _ := flowBackend
    let _ : Dice Unit ℚ := Dice.zero
    ∃ p : SteinerNetwork ℚ Unit,
      make (1 / 10) corner (.ofList cornerNeeds) "cost" [] .first () = .ok p ∧
      ∃ t v u, Returns Roundable.feasible (cornerRun p) false t ∧
        t.problem.oracle.violation = some v ∧ v.candidate ∈ p.pairs ∧
        v.candidate.1 ∈ v.witness ∧ v.candidate.2 ∉ v.witness ∧
        Returns Roundable.separate t 0 u := by
  intro _ _
  obtain ⟨p, hmake, hverdict⟩ := feasible_iff_sets_crossed (S := Unit) corner_valid
    (by decide) (by norm_num : (0 : ℚ) ≤ 1 / 10)
    (by decide +kernel : ∀ e ∈ cornerNeeds, e.1.1 ∈ corner.vertices ∧ e.1.2 ∈ corner.vertices)
    (FlowFinder.largest_maximal _) "cost" [] .first ()
  obtain ⟨p', hmake', htest⟩ := exists_ok
    (make (1 / 10) corner (.ofList cornerNeeds) "cost" [] .first ())
    (fun p : SteinerNetwork ℚ Unit => decide (across {.number 1} (p.shown cornerPoint) < 19 / 10))
    (by
      rw [make, prune_corner]
      decide +kernel)
  obtain rfl := Except.ok.inj (hmake'.symm.trans hmake)
  obtain ⟨-, hedges, -⟩ := make_eq_ok hmake
  have hcolumns : p'.model.columns.length = corner.edges.length := by simp [model, hedges]
  have hnonneg (j : Nat) : 0 ≤ cornerPoint.getD j 0 := by
    rcases j with _ | _ | _ | _ | j <;> norm_num [cornerPoint]
  obtain ⟨b, t, ht, hb, -, hfalse⟩ := hverdict (cornerRun p') ⟨cornerPoint, 0⟩ ⟨_, _, rfl⟩ rfl
    hcolumns (by decide +kernel) hnonneg
  obtain rfl : b = false := by
    refine Bool.eq_false_iff.mpr fun htrue => ?_
    have hle := hb.mp htrue ((.number 1, .number 2), 2) (by decide +kernel) (by decide)
      (by decide +kernel) {.number 1} (by decide) (by decide)
    have hneed : (Requirements.ofList cornerNeeds).need (.number 1) (.number 2) = 2 := by
      decide +kernel
    rw [hneed] at hle
    have := of_decide_eq_true htest
    linarith
  obtain ⟨v, u, row, hv, hpair, -, hnear, hfar, hu, -⟩ := hfalse rfl
  exact ⟨p', hmake', t, v, u, ht, hv, hpair, hnear, hfar, hu⟩

end LPRounding.SteinerNetwork
