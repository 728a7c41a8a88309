import LPRounding.Proofs.Flow.Slack
import LPRounding.Proofs.Run.Verdict
import LPRounding.Proofs.BoundedTree.Halting

/-!
Spanning trees with degree bounds: the verdict of the oracle on a point. The set that is read off a
maximum flow holds most for its size, up to the tolerance for each pair of sites that an arc joins;
what the tolerance leaves out of the network adds no more than itself for each edge.
-/

namespace LPRounding.BoundedTree

set_option linter.unusedSectionVars false

variable {K S : Type} [Field K] [LinearOrder K] [IsStrictOrderedRing K] [FloorRing K]
  {p : BoundedTree K S} {entries : List (Edge K × K)} {v : Node}

theorem weight_le_length (h : ∀ e ∈ entries, 0 ≤ e.2 ∧ e.2 ≤ 1) (set : Finset Node) :
    weight entries set ≤ entries.length := by
  have hle := List.sum_le_card_nsmul
    (entries.map fun e => if e.1.name.u ∈ set ∧ e.1.name.v ∈ set then e.2 else 0) 1 fun y hy => by
      obtain ⟨e, he, rfl⟩ := List.mem_map.mp hy
      split
      · exact (h e he).2
      · exact zero_le_one
  simpa [weight] using hle

namespace Forced

variable {n : Network Site K} {set : Finset Node}

theorem card_joints_le (h : p.Forced entries v n) (hpos : ∀ e ∈ entries, 0 ≤ e.2)
    {near : Finset Site} (hs : .source ∈ near) (ht : .sink ∉ near) :
    (n.joints near).card ≤ p.graph.vertices.length + entries.length := by
  let enter : List (Site × Site) := p.graph.vertices.map fun w => (.source, .vertex w)
  let leave : List (Site × Site) := p.graph.vertices.map fun w => (.vertex w, .sink)
  let inner : List (Site × Site) := entries.map fun e => (.vertex e.1.name.u, .vertex e.1.name.v)
  have hall : ∀ a b, n.room a b ≠ 0 → ∃ e ∈ enter ++ leave ++ inner,
      (a = e.1 ∧ b = e.2) ∨ (a = e.2 ∧ b = e.1) := by
    intro a b hroom
    rcases inner_or_arc p a b with hin | ⟨w, hw, rfl, rfl⟩ | ⟨w, hw, rfl, rfl⟩
    · have hab : a ≠ b := by
        rintro rfl
        exact hroom (by rw [Network.room, if_pos rfl])
      rw [h.room_inner hpos hab hin] at hroom
      obtain ⟨e, he, hends⟩ := Network.exists_between hroom
      exact ⟨_, List.mem_append_right _ (List.mem_map_of_mem he), hends⟩
    · exact ⟨_, List.mem_append_left _ (List.mem_append_left _ (List.mem_map_of_mem hw)),
        .inl ⟨rfl, rfl⟩⟩
    · exact ⟨_, List.mem_append_left _ (List.mem_append_right _ (List.mem_map_of_mem hw)),
        .inl ⟨rfl, rfl⟩⟩
  let crosses (e : Site × Site) : Bool := decide (e.1 ∈ near) != decide (e.2 ∈ near)
  let inside (w : Node) : Bool := decide (.vertex w ∈ near)
  have henter : enter.countP crosses = p.graph.vertices.countP fun w => !inside w := by
    simp [enter, crosses, inside, List.countP_map, Function.comp_def, hs]
  have hleave : leave.countP crosses = p.graph.vertices.countP inside := by
    simp [leave, crosses, inside, List.countP_map, Function.comp_def, ht]
  have hinner : inner.countP crosses ≤ entries.length :=
    List.countP_le_length.trans_eq (List.length_map _)
  calc (n.joints near).card
      ≤ (enter ++ leave ++ inner).countP crosses :=
        Network.card_joints_le _ Prod.fst Prod.snd hall
    _ = (p.graph.vertices.countP inside + p.graph.vertices.countP fun w => !inside w) +
          inner.countP crosses := by
        rw [List.countP_append, List.countP_append, henter, hleave, add_comm (List.countP _ _)]
    _ ≤ p.graph.vertices.length + entries.length := by
        rw [List.length_eq_countP_add_countP inside]
        exact Nat.add_le_add (by simp) hinner

/-- The set that is read off a maximum flow holds most for its size, but for the tolerance. -/
theorem almost_most_inside (h : p.Forced entries v n) (hv : v ∈ p.graph.vertices)
    (hends : ∀ e ∈ entries, e.1.name.u ∈ p.graph.vertices ∧ e.1.name.v ∈ p.graph.vertices)
    (hpos : ∀ e ∈ entries, 0 ≤ e.2) {find : FlowFinder Site K} (hfind : find.Maximal)
    {tolerance : K} (h0 : 0 ≤ tolerance) (h1 : tolerance < 1) {cut : Cut Site K}
    (hcut : n.siteCut find tolerance .source .sink = .ok cut)
    (hset : set ⊆ p.graph.vertices.toFinset) (hvs : v ∈ set) :
    weight entries set - set.card ≤ weight entries cut.nodes.toFinset - cut.nodes.length +
      tolerance * ((p.graph.vertices.length + entries.length : ℕ) / 2) := by
  have hheavy : 0 ≤ p.heaviest entries := (load_nonneg hpos v).trans (load_le hv)
  have hvn := h.mem_nodes hv hpos hfind.sound h0 h1 hcut
  obtain ⟨hasked, -, hreach⟩ := FlowFinder.of_siteCut h.valid hcut
  have hmax := hfind _ _ _ hasked
  obtain ⟨-, hs, -, hst, -⟩ := hasked
  obtain ⟨hsub, hsn, htn, hle⟩ := hmax.cutRoom_le h.valid hst hs h0
  rw [← hreach] at hsub hsn htn hle
  have hnodup : cut.nodes.Nodup := Cut.nodup_nodes (hreach ▸ h.valid.nodup_reachable _ _ _)
  have hmem (w : Node) : w ∈ cut.nodes.toFinset ↔ .vertex w ∈ cut.reachable.toFinset := by
    rw [List.mem_toFinset, List.mem_toFinset, Cut.mem_nodes]
  obtain ⟨hside, hsubset⟩ := h.eq_side hsub hsn htn hmem
  have hjoints : ((n.joints cut.reachable.toFinset).card : K) ≤
      (p.graph.vertices.length + entries.length : ℕ) :=
    Nat.cast_le.mpr (h.card_joints_le hpos hsn htn)
  have hvalue := hmax.1.value_le (h.side_subset hset) (by simp [side]) (by simp [side])
  have hcost := mul_le_mul_of_nonneg_left hjoints h0
  rw [h.cutRoom_of_mem hpos hends hheavy hset hvs] at hvalue
  rw [hside, h.cutRoom_of_mem hpos hends hheavy hsubset (List.mem_toFinset.mpr hvn), ← hside,
    List.toFinset_card_of_nodup hnodup] at hle
  linarith

theorem heaviest_nil (p : BoundedTree K S) : p.heaviest ([] : List (Edge K × K)) = 0 := by
  have hmem : p.heaviest ([] : List (Edge K × K)) ∈ 0 :: p.graph.vertices.map (load []) :=
    Scalar.largest_mem 0 _
  rcases List.mem_cons.mp hmem with h0 | hmem
  · exact h0
  · obtain ⟨u, -, hu⟩ := List.mem_map.mp hmem
    exact hu.symm

theorem room_eq_zero (h : p.Forced [] v n) {a b : Site} (hab : a ≠ b)
    (hno : ¬ (a = .source ∧ b = .vertex v)) (hb : b ≠ .sink) : n.room a b = 0 := by
  have hpos : ∀ e ∈ ([] : List (Edge K × K)), 0 ≤ e.2 := by simp
  rcases inner_or_arc p a b with hin | ⟨u, hu, rfl, rfl⟩ | ⟨u, -, -, rfl⟩
  · rw [h.room_inner hpos hab hin]
    rfl
  · rw [h.room_enter (heaviest_nil p).ge hu (fun heq => hno ⟨rfl, heq ▸ rfl⟩), heaviest_nil]
  · exact absurd rfl hb

theorem eq_of_mem_nodes (h : p.Forced [] v n) {find : FlowFinder Site K} (hfind : find.Maximal)
    {tolerance : K} (h0 : 0 ≤ tolerance) {cut : Cut Site K}
    (hcut : n.siteCut find tolerance .source .sink = .ok cut) {w : Node} (hw : w ∈ cut.nodes) :
    w = v := by
  obtain ⟨hasked, -, hreach⟩ := FlowFinder.of_siteCut h.valid hcut
  have hmax := hfind _ _ _ hasked
  obtain ⟨-, hs, -, hst, -⟩ := hasked
  have hsink := (hmax.separates h.valid hst hs h0).2
  rw [hmax.1.mem_reachable h.valid h0 hs] at hsink
  have hall {s : Site} (hr : Relation.ReflTransGen (n.Residual
      (find n (n.place .source) (n.place .sink)) tolerance) .source s) :
      s = .source ∨ s = .vertex v := by
    induction hr with
    | refl => exact .inl rfl
    | @tail b c hb hbc ih =>
      by_contra hno
      obtain ⟨hc, hcv⟩ := not_or.mp hno
      have hct : c ≠ .sink := by
        rintro rfl
        exact hsink ⟨hbc.2.1, hb.tail hbc⟩
      -- neither way has room, so nothing is sent and nothing can be sent back
      obtain ⟨hbn, hcn, hlt⟩ := hbc
      have hbt : b ≠ .sink := by rcases ih with rfl | rfl <;> simp
      have hbc : b ≠ c := by rcases ih with rfl | rfl <;> exact Ne.symm ‹_›
      have hon : n.room b c = 0 := h.room_eq_zero hbc (fun h => hcv h.2) hct
      have hback : n.room c b = 0 := h.room_eq_zero hbc.symm (fun h => hc h.1) hbt
      rw [hmax.1.sent_eq_zero hbn hcn hon hback, hon, sub_zero] at hlt
      exact absurd h0 (not_le.mpr hlt)
  rw [Cut.mem_nodes, hreach, hmax.1.mem_reachable h.valid h0 hs] at hw
  simpa using hall hw.2

end Forced

/-- The entries above the tolerance. -/
def shown (p : BoundedTree K S) (x : List K) : List (Edge K × K) :=
  (p.entries x).filter fun e => p.tolerance.above e.2 0

theorem length_entries (p : BoundedTree K S) (x : List K) :
    (p.entries x).length = p.edges.length := by
  simp [BoundedTree.entries]

theorem exists_prepare {m : Model K} {x : Solution K} (hx : m.solution = some x)
    (hm : m.columns.length = p.edges.length) (hl : x.values.length = p.edges.length) :
    ∃ values, p.edges.zip values = p.entries x.values ∧ p.prepare m =
      .ok (⟨values, p.auxiliary (p.shown x.values)⟩, p.graph.vertices) := by
  obtain ⟨values, hvalues⟩ := exists_mapM (fun e : Edge K × Nat => m.columnValue e.2)
    p.edges.zipIdx fun e he => ⟨_, Model.exists_values hx (hl.trans hm.symm) hm.symm e he⟩
  have hprep : p.prepare m = .ok (⟨values, _⟩, p.graph.vertices) :=
    ok_bind_iff.mpr ⟨values, hvalues, rfl⟩
  obtain ⟨-, hzip, hnetwork⟩ := prepare_eq_ok hx hprep
  exact ⟨values, hzip, hprep.trans (by rw [shown, ← hnetwork])⟩

section Point

variable {x : List K} (hrange : ∀ j, 0 ≤ x.getD j 0 ∧ x.getD j 0 ≤ 1)

include hrange

theorem entries_range : ∀ e ∈ p.entries x, 0 ≤ e.2 ∧ e.2 ≤ 1 := by
  intro e he
  obtain ⟨⟨e', j⟩, -, rfl⟩ := List.mem_map.mp he
  exact hrange j

theorem of_mem_shown : ∀ e ∈ p.shown x, e.1 ∈ p.edges ∧ 0 ≤ e.2 := by
  intro e he
  have he := List.mem_of_mem_filter he
  refine ⟨?_, (entries_range hrange e he).1⟩
  obtain ⟨⟨e', j⟩, hmem, rfl⟩ := List.mem_map.mp he
  exact List.fst_mem_of_mem_zipIdx hmem

theorem weight_shown_le (set : Finset Node) :
    weight (p.shown x) set ≤ weight (p.entries x) set := by
  rw [weight, weight, shown, sum_map_filter]
  refine List.sum_le_sum fun e he => ?_
  have hnonneg := (entries_range hrange e he).1
  split <;> split <;> first | exact le_rfl | exact hnonneg

theorem weight_le_shown (h0 : 0 ≤ p.tolerance.epsilon) (set : Finset Node) :
    weight (p.entries x) set ≤ weight (p.shown x) set + p.tolerance.epsilon * p.edges.length := by
  have hlen : p.tolerance.epsilon * p.edges.length =
      ((p.entries x).map fun _ => p.tolerance.epsilon).sum := by
    simp [length_entries, mul_comm]
  rw [weight, weight, shown, sum_map_filter, hlen, ← List.sum_map_add]
  refine List.sum_le_sum fun e _ => ?_
  by_cases habove : p.tolerance.above e.2 0 = true
  · rw [if_pos habove]
    exact le_add_of_nonneg_right h0
  · have hlow : e.2 ≤ p.tolerance.epsilon := by simpa using habove
    rw [if_neg habove, zero_add]
    split
    · exact hlow
    · exact h0

theorem shown_eq_nil (h1 : 1 ≤ p.tolerance.epsilon) : p.shown x = [] := by
  refine List.filter_eq_nil_iff.mpr fun e he habove => ?_
  have hlt : p.tolerance.epsilon < e.2 := by simpa using habove
  exact absurd (hlt.trans_le (entries_range hrange e he).2) (not_lt.mpr h1)

theorem weight_le_of_large (h1 : 1 ≤ p.tolerance.epsilon) {set : Finset Node}
    (hne : set.Nonempty) : weight (p.entries x) set ≤ set.card - 1 + p.tolerance.epsilon *
      (1 + p.edges.length + (p.graph.vertices.length + p.edges.length) / 2) := by
  have hcard : (1 : K) ≤ set.card := by exact_mod_cast hne.card_pos
  have hlen := weight_le_length (entries_range (p := p) hrange) set
  rw [length_entries] at hlen
  have hedges : (p.edges.length : K) ≤ p.tolerance.epsilon * p.edges.length :=
    le_mul_of_one_le_left (Nat.cast_nonneg _) h1
  have hrest : 0 ≤ p.tolerance.epsilon *
      (1 + (p.graph.vertices.length + p.edges.length : K) / 2) := by positivity
  linarith

end Point

section Measured

variable [Backend K] {x values : List K} {k : Node} {viol : Violation K Node} (hp : p.Sane)
  (hflow : (Backend.flow : FlowFinder Site K).Maximal)
  (hrange : ∀ j, 0 ≤ x.getD j 0 ∧ x.getD j 0 ≤ 1)
  (hzip : p.edges.zip values = p.entries x) (hk : k ∈ p.graph.vertices)
  (hm : p.measure ⟨values, p.auxiliary (p.shown x)⟩ k = .ok viol)

include hp hrange hk in
theorem forced_shown :
    p.Forced (p.shown x) k ((p.auxiliary (p.shown x)).release .source (.vertex k)) :=
  forced_release (fun e he => hp.graph.edge_ends (hp.edges ▸ (of_mem_shown hrange e he).1)) hk

include hzip hm

theorem exists_cut : ∃ cut : Cut Site K,
    ((p.auxiliary (p.shown x)).release .source (.vertex k)).siteCut Backend.flow
      p.tolerance.epsilon .source .sink = .ok cut ∧
    viol = { magnitude := weight (p.entries x) cut.nodes.toFinset - (cut.nodes.length - 1)
             candidate := k, witness := cut.nodes, side := cut.nodes.length - 1 } := by
  obtain ⟨cut, hcut, hm⟩ := ok_bind_iff.mp hm
  have hside : (Scalar.ofInt ((cut.nodes.length : Int) - 1) : K) = cut.nodes.length - 1 := by simp
  refine ⟨cut, hcut, ?_⟩
  rw [← Except.ok.inj hm, hside, inside_eq hzip]

include hp hflow hrange hk

theorem mem_witness (hlarge : p.tolerance.epsilon < viol.magnitude) : k ∈ viol.witness := by
  have hshown := of_mem_shown (p := p) hrange
  have hforced := forced_shown hp hrange hk
  obtain ⟨-, hne, -, -⟩ := hp.of_measure hflow.sound hshown hk hm hlarge
  obtain ⟨cut, hcut, rfl⟩ := exists_cut hzip hm
  by_cases h1 : p.tolerance.epsilon < 1
  · exact hforced.mem_nodes hk (fun e he => (hshown e he).2) hflow.sound hp.epsilon h1 hcut
  · have hnil := shown_eq_nil hrange (not_lt.mp h1)
    obtain ⟨w, hw⟩ := List.exists_mem_of_ne_nil _ hne
    rw [hnil] at hforced hcut
    exact hforced.eq_of_mem_nodes hflow hp.epsilon hcut hw ▸ hw

/-- A set that is reported as violated has more inside than its size allows, by more than the
tolerance. -/
theorem lt_weight_witness (hlarge : p.tolerance.epsilon < viol.magnitude) :
    viol.candidate ∈ viol.witness ∧ viol.side = viol.witness.length - 1 ∧ viol.witness.Nodup ∧
      viol.witness ⊆ p.graph.vertices ∧ (viol.witness.length : K) - 1 + p.tolerance.epsilon <
        weight (p.entries x) viol.witness.toFinset := by
  have hin := mem_witness hp hflow hrange hzip hk hm hlarge
  obtain ⟨-, -, hnodup, hsub⟩ := hp.of_measure hflow.sound (of_mem_shown hrange) hk hm hlarge
  obtain ⟨cut, -, rfl⟩ := exists_cut hzip hm
  have hlarge : p.tolerance.epsilon < weight (p.entries x) cut.nodes.toFinset -
    (cut.nodes.length - 1) := hlarge
  exact ⟨hin, rfl, hnodup, hsub, by linarith⟩

theorem weight_le_of_measure (hle : viol.magnitude ≤ p.tolerance.epsilon) {set : Finset Node}
    (hset : set ⊆ p.graph.vertices.toFinset) (hks : k ∈ set) :
    weight (p.entries x) set ≤ set.card - 1 + p.tolerance.epsilon *
      (1 + p.edges.length + (p.graph.vertices.length + p.edges.length) / 2) := by
  by_cases h1 : 1 ≤ p.tolerance.epsilon
  · exact weight_le_of_large hrange h1 ⟨k, hks⟩
  have hε := hp.epsilon
  have hshown := of_mem_shown (p := p) hrange
  obtain ⟨cut, hcut, rfl⟩ := exists_cut hzip hm
  have hmost := (forced_shown hp hrange hk).almost_most_inside hk
    (fun e he => hp.graph.edge_ends (hp.edges ▸ (hshown e he).1)) (fun e he => (hshown e he).2)
    hflow hε (not_le.mp h1) hcut hset hks
  have hfew : ((p.graph.vertices.length + (p.shown x).length : ℕ) : K) / 2 ≤
      (p.graph.vertices.length + p.edges.length) / 2 := by
    have hlen : (p.shown x).length ≤ p.edges.length :=
      (List.length_filter_le _ _).trans_eq (p.length_entries x)
    have hlen : ((p.shown x).length : K) ≤ p.edges.length := Nat.cast_le.mpr hlen
    push_cast
    linarith
  have hslack := mul_le_mul_of_nonneg_left hfew hε
  have hinside := weight_shown_le (p := p) hrange cut.nodes.toFinset
  have hleft := weight_le_shown hrange hε set
  have hle : weight (p.entries x) cut.nodes.toFinset - (cut.nodes.length - 1) ≤
    p.tolerance.epsilon := hle
  calc weight (p.entries x) set
      ≤ set.card - 1 + (p.tolerance.epsilon + p.tolerance.epsilon * p.edges.length +
          p.tolerance.epsilon * ((p.graph.vertices.length + p.edges.length) / 2)) := by linarith
    _ = _ := by ring

end Measured

theorem weight_le_of_clear [Backend K] {x values : List K} (hp : p.Sane)
    (hflow : (Backend.flow : FlowFinder Site K).Maximal)
    (hrange : ∀ j, 0 ≤ x.getD j 0 ∧ x.getD j 0 ≤ 1) (hzip : p.edges.zip values = p.entries x)
    (hclear : Search.Clear p.tolerance (p.measure ⟨values, p.auxiliary (p.shown x)⟩)
      p.graph.vertices) {set : Finset Node} (hset : set ⊆ p.graph.vertices.toFinset)
    (hne : set.Nonempty) : weight (p.entries x) set ≤ set.card - 1 + p.tolerance.epsilon *
      (1 + p.edges.length + (p.graph.vertices.length + p.edges.length) / 2) := by
  obtain ⟨k, hks⟩ := hne
  have hk : k ∈ p.graph.vertices := List.mem_toFinset.mp (hset hks)
  obtain ⟨v, hv, hle⟩ := hclear k hk
  exact weight_le_of_measure hp hflow hrange hzip hk hv hle hset hks

theorem rowValue_subtourRow {m : Model K} {x : Solution K} (hx : m.solution = some x)
    (hl : x.values.length = p.edges.length) (viol : Violation K Node) :
    ({ m with rows := m.rows ++ [p.subtourRow viol] } : Model K).rowValue m.rows.length =
      .ok (weight (p.entries x.values) viol.witness.toFinset) := by
  have hcoefs : ∀ e ∈ (p.subtourRow viol).coefs, e.1 < x.values.length := by
    intro e he
    obtain ⟨j, hj, rfl⟩ := List.mem_map.mp he
    obtain ⟨a, ha, -⟩ := Model.mem_positions.mp hj
    exact hl ▸ (List.getElem?_eq_some_iff.mp ha).1
  rw [Model.rowValue_append hx hcoefs, ← weigh_within]
  rfl

theorem exists_make {ε : K} {g : Graph K} (hk : g.kind = .simple) (h0 : 0 ≤ ε)
    (bounds : List (Node × Int)) (costName : String) (entries : List Choice) (strategy : Strategy)
    (dice : S) : ∃ p, make ε g bounds costName entries strategy dice = .ok p := by
  have htol : Tolerance.ofEpsilon ε = .ok ⟨ε⟩ := Tolerance.ofEpsilon_eq_ok.mpr ⟨h0, rfl⟩
  rw [make, if_neg (not_not.mpr hk), htol]
  exact ⟨_, rfl⟩

/-- A check of a point between zero and one always ends. Where it rejects the point, the set that
is recorded holds its candidate and has more inside than its size allows by more than the tolerance;
the row that is added next has what is inside as its value. Where it accepts the point, no set has
more inside than its size and a multiple of the tolerance allow; without a tolerance the verdict is
exact. -/
theorem feasible_of_subtours [Backend K] [Dice S K] {ε : K} {g : Graph K} (hg : g.Valid)
    (hk : g.kind = .simple) (h0 : 0 ≤ ε) (hflow : (Backend.flow : FlowFinder Site K).Maximal)
    (bounds : List (Node × Int)) (costName : String) (entries : List Choice) (strategy : Strategy)
    (dice : S) :
    ∃ p, make ε g bounds costName entries strategy dice = .ok p ∧
      ∀ (s : Run (BoundedTree K S) K) (x : Solution K),
        (∃ sink committed oracle, s.problem = { p with sink, committed, oracle }) →
        s.lp.solution = some x → s.lp.columns.length = g.edges.length →
        x.values.length = g.edges.length →
        (∀ j, 0 ≤ x.values.getD j 0 ∧ x.values.getD j 0 ≤ 1) →
        ∃ b t, Returns Roundable.feasible s b t ∧
          (b = false → ∃ v u row, t.problem.oracle.violation = some v ∧
            v.candidate ∈ v.witness ∧ v.witness.Nodup ∧ v.witness ⊆ g.vertices ∧
            (v.witness.length : K) - 1 + ε < weight (p.entries x.values) v.witness.toFinset ∧
            Returns Roundable.separate t s.lp.rows.length u ∧
            u.lp = { s.lp with rows := s.lp.rows ++ [row] } ∧
            u.lp.rowValue s.lp.rows.length =
              .ok (weight (p.entries x.values) v.witness.toFinset) ∧
            row.bound = ⟨.upper, 0, v.witness.length - 1⟩) ∧
          (b = true → ∀ set ⊆ g.vertices.toFinset, set.Nonempty →
            weight (p.entries x.values) set ≤ set.card - 1 +
              ε * (1 + g.edges.length + (g.vertices.length + g.edges.length) / 2)) ∧
          (ε = 0 → (b = true ↔ ∀ set ⊆ g.vertices.toFinset, set.Nonempty →
            weight (p.entries x.values) set ≤ set.card - 1)) := by
  obtain ⟨p, hmake⟩ := exists_make hk h0 bounds costName entries strategy dice
  have hp := sane_of_make hg hmake
  obtain ⟨rfl, hedges, -, rfl, -, -, -⟩ := make_eq_ok hmake
  refine ⟨p, hmake, ?_⟩
  rw [← hedges]
  rintro s x ⟨sink, committed, oracle, hs⟩ hx hm hl hrange
  obtain ⟨values, hzip, hprep⟩ := exists_prepare hx hm hl
  have hprep : checker.prepare s.problem s.lp =
      .ok (⟨values, p.auxiliary (p.shown x.values)⟩, p.graph.vertices) := by
    rw [hs]
    exact hprep
  have hcheck : checker.check s.problem = p.measure := by
    rw [hs]
    rfl
  have htol : s.problem.tolerance = p.tolerance := by rw [hs]
  have hshown := of_mem_shown (p := p) hrange
  obtain ⟨b, t, ht, hb, hreject⟩ := Oracle.exists_verdict home checker tolerance
    (fun _ _ => rfl) (fun _ _ _ => rfl) hprep
    (hcheck ▸ fun k hk => hp.exists_measure (fun e he => (hshown e he).1) hk)
  rw [htol, hcheck] at hb
  have hfalse (hb' : b = false) : ∃ v u row, t.problem.oracle.violation = some v ∧
      v.candidate ∈ v.witness ∧ v.witness.Nodup ∧ v.witness ⊆ p.graph.vertices ∧
      (v.witness.length : K) - 1 + p.tolerance.epsilon <
        weight (p.entries x.values) v.witness.toFinset ∧
      Returns Roundable.separate t s.lp.rows.length u ∧
      u.lp = { s.lp with rows := s.lp.rows ++ [row] } ∧
      u.lp.rowValue s.lp.rows.length = .ok (weight (p.entries x.values) v.witness.toFinset) ∧
      row.bound = ⟨.upper, 0, v.witness.length - 1⟩ := by
    obtain ⟨v, hrec, ⟨k, hk, hv⟩, hlarge, u, hu, hadded⟩ := hreject hb'
    rw [hcheck] at hv
    rw [htol] at hlarge
    have hadded : u.lp = { s.lp with rows := s.lp.rows ++ [p.subtourRow v] } := by
      rw [hadded, hs]
      rfl
    obtain ⟨hin, hside, hnodup, hsub, hlt⟩ :=
      lt_weight_witness hp hflow hrange hzip hk hv hlarge
    have hvalue : u.lp.rowValue s.lp.rows.length =
        .ok (weight (p.entries x.values) v.witness.toFinset) := by
      rw [hadded]
      exact rowValue_subtourRow hx hl v
    have hbound : (p.subtourRow v).bound = ⟨.upper, 0, v.witness.length - 1⟩ := by
      rw [← hside]
      rfl
    exact ⟨v, u, _, hrec, hin, hnodup, hsub, hlt, hu, hadded, hvalue, hbound⟩
  refine ⟨b, t, ht, hfalse, fun hb' set hset hne =>
    weight_le_of_clear hp hflow hrange hzip (hb.mp hb') hset hne,
    fun hzero => ⟨fun hb' set hset hne => ?_, fun hall => ?_⟩⟩
  · simpa [hzero] using weight_le_of_clear hp hflow hrange hzip (hb.mp hb') hset hne
  · by_contra hb'
    obtain ⟨v, -, -, -, hin, hnodup, hsub, hlt, -⟩ := hfalse (by simpa using hb')
    have hle := hall v.witness.toFinset (fun w hw => List.mem_toFinset.mpr
      (hsub (List.mem_toFinset.mp hw))) ⟨_, List.mem_toFinset.mpr hin⟩
    rw [List.toFinset_card_of_nodup hnodup] at hle
    linarith

def pendantPoint : List ℚ := [1, 1, 1, 0]

def pendantRun (p : BoundedTree ℚ Unit) : Run (BoundedTree ℚ Unit) ℚ where
  problem := p
  lp := { p.model with solution := some ⟨pendantPoint, 0⟩ }

theorem pendant_verdict :
    let _ := flowBackend
    let _ : Dice Unit ℚ := Dice.zero
    ∃ p : BoundedTree ℚ Unit, make 0 pendant [] "cost" [] .first () = .ok p ∧
      ∃ t v u, Returns Roundable.feasible (pendantRun p) false t ∧
        t.problem.oracle.violation = some v ∧ v.candidate ∈ v.witness ∧
        (v.witness.length : ℚ) - 1 < weight (p.entries pendantPoint) v.witness.toFinset ∧
        Returns Roundable.separate t p.model.rows.length u ∧
        u.lp.rowValue p.model.rows.length =
          .ok (weight (p.entries pendantPoint) v.witness.toFinset) := by
  intro _ _
  obtain ⟨p, hmake, hverdict⟩ := feasible_of_subtours (S := Unit) pendant_valid rfl
    (le_refl (0 : ℚ)) (FlowFinder.largest_maximal _) [] "cost" [] .first ()
  let triangle : Finset Node := {.number 1, .number 2, .number 3}
  obtain ⟨p', hmake', htest⟩ := exists_ok (make 0 pendant [] "cost" [] .first ())
    (fun p : BoundedTree ℚ Unit => decide (weight (p.entries pendantPoint) triangle = 3))
    (by decide +kernel)
  obtain rfl := Except.ok.inj (hmake'.symm.trans hmake)
  obtain ⟨-, hedges, -⟩ := make_eq_ok hmake
  have hcolumns : p'.model.columns.length = pendant.edges.length := by simp [model, hedges]
  have hrange (j : Nat) : 0 ≤ pendantPoint.getD j 0 ∧ pendantPoint.getD j 0 ≤ 1 := by
    rcases j with _ | _ | _ | _ | j <;> norm_num [pendantPoint]
  obtain ⟨b, t, ht, hfalse, -, hexact⟩ := hverdict (pendantRun p') ⟨pendantPoint, 0⟩
    ⟨_, _, _, rfl⟩ rfl hcolumns (by decide +kernel) hrange
  obtain rfl : b = false := by
    refine Bool.eq_false_iff.mpr fun htrue => ?_
    have hle := (hexact rfl).mp htrue triangle (by decide) (by decide)
    have hcard : triangle.card = 3 := rfl
    rw [of_decide_eq_true htest, hcard] at hle
    norm_num at hle
  obtain ⟨v, u, row, hv, hin, -, -, hlt, hu, -, hvalue, -⟩ := hfalse rfl
  rw [add_zero] at hlt
  exact ⟨p', hmake', t, v, u, ht, hv, hin, hlt, hu, hvalue⟩

end LPRounding.BoundedTree
