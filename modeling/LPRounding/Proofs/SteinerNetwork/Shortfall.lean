import LPRounding.Proofs.Flow.Slack
import LPRounding.Proofs.SteinerNetwork.Answer

/-!
Steiner networks: what the row of a violated pair misses at the point that was rejected. The edges
that are not above the tolerance are left out of the network, and up to the tolerance is left on
each edge across the set that is read off the flow, so the row misses the magnitude of the violation
but for the tolerance on each of its edges.
-/

namespace LPRounding.SteinerNetwork

set_option linter.unusedSectionVars false

variable {K S : Type} [Field K] [LinearOrder K] [IsStrictOrderedRing K] [FloorRing K]
  {p : SteinerNetwork K S} {m : Model K}

def valued (p : SteinerNetwork K S) (x : List K) : List (Edge K × K) :=
  p.edges.zipIdx.map fun (e, j) => (e, x.getD j 0)

theorem across_eq (set : Finset Node) (entries : List (Edge K × K)) :
    across set entries =
      ((entries.filter fun e => crosses set (e.1.name.u, e.1.name.v)).map Prod.snd).sum := by
  rw [sum_map_filter, across]
  congr 1
  exact List.map_congr_left fun e _ => by split <;> simp

theorem weigh_cutRow (v : Violation K (Node × Node)) (x : List K) :
    weigh (p.cutRow v).coefs x = across v.witness.toFinset (p.valued x) := by
  rw [weigh_eq, across_eq, valued, List.filter_map, List.map_map]
  simp only [cutRow, cover, crossing, Model.positions, List.map_map, sum_map_filter]
  congr 1
  refine List.map_congr_left fun e _ => ?_
  simp [crosses]

theorem length_crossing (set : List Node) (x : List K) :
    (p.crossing set).length =
      (p.valued x).countP fun e => crosses set.toFinset (e.1.name.u, e.1.name.v) := by
  rw [valued, List.countP_map, List.countP_eq_length_filter, crossing, Model.positions,
    List.length_map]
  refine congrArg List.length (List.filter_congr fun e _ => ?_)
  simp [crosses]

theorem across_shown_le (hg : p.graph.Valid) (hp : p.edges = p.graph.edges)
    (h0 : 0 ≤ p.tolerance.epsilon) {find : FlowFinder Site K} (hflow : find.Maximal) {x : List K}
    {s t : Node} {cut : Cut Site K} (hcut : (joined p.emptyNetwork (p.shown x)).siteCut find
      p.tolerance.epsilon (.vertex s) (.vertex t) = .ok cut) :
    across cut.nodes.toFinset (p.shown x) ≤ cut.value + p.tolerance.epsilon *
      ((p.shown x).map fun e =>
        if crosses cut.nodes.toFinset (e.1.name.u, e.1.name.v) then (1 : K) else 0).sum := by
  have hentries : ∀ e ∈ p.shown x, e.1 ∈ p.graph.edges ∧ 0 ≤ e.2 := by
    intro e he
    obtain ⟨he, hlt⟩ := of_mem_shown he
    exact ⟨hp ▸ he, h0.trans hlt.le⟩
  obtain ⟨hs, -⟩ := p.spread_joined (p.shown x)
  obtain ⟨hasked, hvalue, hreach⟩ := FlowFinder.of_siteCut hs.valid hcut
  obtain ⟨-, -, -, hle⟩ := (hflow _ _ _ hasked).cutRoom_le hs.valid hasked.2.2.2.1 hasked.2.1 h0
  rw [← hreach, ← hvalue] at hle
  have hnear (w : Node) : .vertex w ∈ cut.reachable.toFinset ↔ w ∈ cut.nodes.toFinset := by
    rw [List.mem_toFinset, List.mem_toFinset, Cut.mem_nodes]
  rw [cutRoom_joined hg hentries cut.nodes.toFinset (b := true) fun w _ => by simp [hnear]] at hle
  have hcount := Network.Spread.card_joints_le hs cut.reachable.toFinset
  simp only [hnear] at hcount
  have hcount : ((Network.joints _ cut.reachable.toFinset).card : K) ≤
      (p.shown x).countP fun e => crosses cut.nodes.toFinset (e.1.name.u, e.1.name.v) :=
    Nat.cast_le.mpr hcount
  have := mul_le_mul_of_nonneg_left hcount h0
  rw [← cast_countP]
  linarith

/-- The row of a pair that was measured misses the magnitude, but for the tolerance on its edges. -/
theorem shortfall [Backend K] (hg : p.graph.Valid) (hp : p.edges = p.graph.edges)
    (h0 : 0 ≤ p.tolerance.epsilon) (hflow : (Backend.flow : FlowFinder Site K).Maximal)
    {x : List K} {pair : Node × Node} {v : Violation K (Node × Node)}
    (hv : p.measure (joined p.emptyNetwork (p.shown x)) pair = .ok v) :
    weigh (p.cutRow v).coefs x + v.magnitude ≤
      v.side + p.tolerance.epsilon * (p.crossing v.witness).length := by
  obtain ⟨cut, hcut, hv⟩ := ok_bind_iff.mp hv
  obtain rfl := Except.ok.inj hv
  let set := cut.nodes.toFinset
  let counts (e : Edge K × K) : Bool := crosses set (e.1.name.u, e.1.name.v)
  have hkept := across_shown_le hg hp h0 hflow hcut
  rw [across_eq] at hkept
  have hout : ∀ e ∈ p.valued x, p.tolerance.above e.2 0 = false →
      (if counts e then e.2 else 0) ≤ p.tolerance.epsilon * if counts e then (1 : K) else 0 := by
    intro e _ hlow
    have hlow : e.2 ≤ p.tolerance.epsilon := by simpa [Tolerance.above] using hlow
    split
    · rwa [mul_one]
    · rw [mul_zero]
  have hall : across set (p.valued x) ≤
      cut.value + p.tolerance.epsilon * (p.crossing cut.nodes).length := by
    rw [across_eq, length_crossing _ x, cast_countP]
    exact sum_le_of_kept hkept hout
  rw [weigh_cutRow]
  show across set (p.valued x) + (p.requirements.need pair.1 pair.2 - cut.value) ≤
    p.requirements.need pair.1 pair.2 + p.tolerance.epsilon * (p.crossing cut.nodes).length
  linarith

theorem not_admits_of_finds [Backend K] (hg : p.graph.Valid) (hp : p.edges = p.graph.edges)
    (h0 : 0 ≤ p.tolerance.epsilon) (hflow : (Backend.flow : FlowFinder Site K).Maximal)
    {x : Solution K} (hx : m.solution = some x) {v : Violation K (Node × Node)}
    (h : Oracle.Finds checker p m v)
    (hlarge : p.tolerance.epsilon * (p.crossing v.witness).length < v.magnitude) :
    ¬ (p.cutRow v).bound.Admits (weigh (p.cutRow v).coefs x.values) := by
  obtain ⟨n, cs, hprep, pair, -, hv⟩ := h
  obtain ⟨rfl, rfl⟩ := prepare_eq_ok hx hprep
  have := shortfall hg hp h0 hflow hv
  intro hadm
  have hadm : v.side ≤ weigh (p.cutRow v).coefs x.values := hadm
  linarith

end LPRounding.SteinerNetwork
