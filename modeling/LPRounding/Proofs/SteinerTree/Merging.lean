import LPRounding.Proofs.Returns
import LPRounding.Proofs.Graph.Shortcut
import LPRounding.Problem.SteinerTree

/-!
Merging vertices of a Steiner tree instance, one pair after the other. Whatever was merged, the
metric holds shortest distances with a free edge for every merged pair, so neither the order of the
merges nor which vertex was the sink makes a difference.
-/

namespace LPRounding.SteinerTree

set_option linter.unusedSectionVars false

variable {K S : Type} [Field K] [LinearOrder K] [IsStrictOrderedRing K] [FloorRing K]
  {p : SteinerTree K S} {m m' : Metric K}

theorem merge_returns {sink source : Node} (hsink : sink ∈ p.vertices)
    (hsource : source ∈ p.vertices) (hm : p.metric = some m) :
    Returns (merge sink source) p ()
      { p with metric := some (m.contract (p.place sink) (p.place source)) } := by
  simp only [merge, returns_bind, returns_get]
  refine ⟨p, p, ⟨rfl, rfl⟩, ?_⟩
  rw [if_neg (not_not.mpr hsink), if_neg (not_not.mpr hsource)]
  simp [hm]

theorem place_lt {v : Node} (hv : v ∈ p.vertices) : p.place v < p.vertices.length :=
  List.idxOf_lt_length_of_mem hv

/-- Each merge makes one more pair free. -/
theorem mergeAll_shortest {free : List (Nat × Nat)} {merged : List (Node × Node)}
    (hm : m.Weak p.vertices.length) (hb : Bounded p.vertices.length free)
    (h : Metric.Shortest m p.vertices.length free m')
    (hin : ∀ e ∈ merged, e.1 ∈ p.vertices ∧ e.2 ∈ p.vertices) (hp : p.metric = some m') :
    ∃ m'', Returns (merged.forM fun e => merge e.1 e.2) p () { p with metric := some m'' } ∧
      Metric.Shortest m p.vertices.length ((places p.vertices merged).reverse ++ free) m'' := by
  induction merged generalizing p m' free with
  | nil => exact ⟨m', returns_pure.mpr ⟨rfl, by rw [← hp]⟩, h⟩
  | cons e merged ih =>
    obtain ⟨⟨hsink, hsource⟩, hin⟩ := List.forall_mem_cons.mp hin
    have hends : p.place e.1 < p.vertices.length ∧ p.place e.2 < p.vertices.length :=
      ⟨place_lt hsink, place_lt hsource⟩
    have hstep := h.contract hm hb hends.1 hends.2
    let q : SteinerTree K S :=
      { p with metric := some (m'.contract (p.place e.1) (p.place e.2)) }
    have hbound : Bounded p.vertices.length ((p.place e.1, p.place e.2) :: free) :=
      List.forall_mem_cons.mpr ⟨hends, hb⟩
    obtain ⟨m'', hrun, hshort⟩ := ih (p := q) hm hbound hstep hin rfl
    refine ⟨m'', returns_forM_cons.mpr ⟨q, merge_returns hsink hsource hp, hrun⟩, ?_⟩
    simpa [places, place, q] using hshort

theorem adjacent_reverse {pairs : List (Nat × Nat)} {i j : Nat} :
    Adjacent (pairs.reverse ++ []) i j ↔ Adjacent pairs i j := by
  simp [Adjacent]

theorem adjacent_places {vertices : List Node} {pairs : List (Node × Node)} {i j : Nat} :
    Adjacent (places vertices pairs) i j ↔
      ∃ u v, Adjacent pairs u v ∧ vertices.idxOf u = i ∧ vertices.idxOf v = j := by
  simp only [Adjacent, places, List.mem_map, Prod.exists, Prod.mk.injEq]
  constructor
  · rintro (⟨u, v, huv, rfl, rfl⟩ | ⟨u, v, huv, rfl, rfl⟩)
    · exact ⟨u, v, .inl huv, rfl, rfl⟩
    · exact ⟨v, u, .inr huv, rfl, rfl⟩
  · rintro ⟨u, v, huv | huv, rfl, rfl⟩
    · exact .inl ⟨u, v, huv, rfl, rfl⟩
    · exact .inr ⟨v, u, huv, rfl, rfl⟩

/-- Any run of merges over a weak metric returns with a weak metric. Its entries are the costs of
shortest trips through the complete graph of the first metric, with a free edge for each merged
pair: none became larger, and the ends of a merged pair are at no distance. The merges of the same
pairs in any other order, or with the ends of some exchanged, leave the same matrix. -/
theorem merging_is_shortest (hm : m.Weak p.vertices.length) (hp : p.metric = some m)
    {merged : List (Node × Node)} (hin : ∀ e ∈ merged, e.1 ∈ p.vertices ∧ e.2 ∈ p.vertices) :
    ∃ m', Returns (merged.forM fun e => merge e.1 e.2) p () { p with metric := some m' } ∧
      m'.Weak p.vertices.length ∧
      (∀ i < p.vertices.length, ∀ j < p.vertices.length,
        0 ≤ m'.far i j ∧ m'.far i j ≤ m.far i j ∧
        Metric.Trip m p.vertices.length (places p.vertices merged) i j (m'.far i j) ∧
        ∀ c, Metric.Trip m p.vertices.length (places p.vertices merged) i j c →
          m'.far i j ≤ c) ∧
      (∀ e ∈ merged, m'.far (p.place e.1) (p.place e.2) = 0) ∧
      ∀ other : List (Node × Node), (∀ u v, Adjacent other u v ↔ Adjacent merged u v) →
        Returns (other.forM fun e => merge e.1 e.2) p () { p with metric := some m' } := by
  have hrun {merged : List (Node × Node)}
      (hin : ∀ e ∈ merged, e.1 ∈ p.vertices ∧ e.2 ∈ p.vertices) :
      ∃ m', Returns (merged.forM fun e => merge e.1 e.2) p () { p with metric := some m' } ∧
        Metric.Shortest m p.vertices.length (places p.vertices merged) m' := by
    obtain ⟨m', hrun, h⟩ := mergeAll_shortest hm (by simp [Bounded]) hm.shortest hin hp
    exact ⟨m', hrun, h.congr fun _ _ => adjacent_reverse⟩
  obtain ⟨m', hreturns, h⟩ := hrun hin
  have hb : Bounded p.vertices.length (places p.vertices merged) := bounded_places hin
  have hweak := h.weak hm hb
  refine ⟨m', hreturns, hweak, fun i hi j hj => ?_, fun e he => ?_, fun other hsame => ?_⟩
  · exact ⟨hweak.nonneg hi hj, h.le hi hj, h.attained i hi j hj, h.least i hi j hj⟩
  · exact h.far_eq_zero hm hb (.inl (List.mem_map_of_mem he))
  · have hother : ∀ e ∈ other, e.1 ∈ p.vertices ∧ e.2 ∈ p.vertices := by
      intro e he
      rcases (hsame e.1 e.2).mp (.inl he) with hmem | hmem
      · exact hin _ hmem
      · exact (hin _ hmem).symm
    obtain ⟨m'', hreturns', h'⟩ := hrun hother
    obtain rfl : m'' = m' := h'.unique h fun k l => by simp only [adjacent_places, hsame]
    exact hreturns'

def strip : Metric ℚ where
  rows := #[#[some 0, some 2, some 5, none], #[some 2, some 0, some 3, none],
    #[some 5, some 3, some 0, none], #[none, none, none, some 0]]

def stripProblem : SteinerTree ℚ Unit where
  tolerance := ⟨0⟩
  graph := {}
  costName := "cost"
  terminals := [.number 0, .number 1, .number 2]
  steiner := [.number 3]
  vertices := [.number 0, .number 1, .number 2, .number 3]
  limit := 3
  sink := .ofList []
  solutionCost := 0
  metric := some strip
  oracle := { strategy := .first, dice := () }
  dice := ()

theorem strip_weak : strip.Weak 4 :=
  ⟨rfl, by decide, by decide +kernel, by decide +kernel, by decide +kernel⟩

theorem strip_merged :
    ∃ m', Returns ([(Node.number 2, Node.number 0), (.number 3, .number 2)].forM
        fun e => merge e.1 e.2) stripProblem () { stripProblem with metric := some m' } ∧
      m'.Weak 4 ∧ m'.far 2 0 = 0 ∧ m'.far 1 3 ≤ 2 ∧
      Returns ([(Node.number 2, Node.number 3), (.number 2, .number 0)].forM
        fun e => merge e.1 e.2) stripProblem () { stripProblem with metric := some m' } := by
  have hin : ∀ e ∈ [(Node.number 2, Node.number 0), (.number 3, .number 2)],
      e.1 ∈ stripProblem.vertices ∧ e.2 ∈ stripProblem.vertices := by decide
  obtain ⟨m', hrun, hweak, hshort, hzero, hother⟩ :=
    merging_is_shortest (p := stripProblem) strip_weak rfl hin
  refine ⟨m', hrun, hweak, hzero _ List.mem_cons_self, ?_, hother _ fun u v => ?_⟩
  · have hfree : Adjacent (places stripProblem.vertices
        [(.number 2, .number 0), (.number 3, .number 2)]) 0 2 := .inr (by decide)
    have hfree' : Adjacent (places stripProblem.vertices
        [(.number 2, .number 0), (.number 3, .number 2)]) 2 3 := .inr (by decide)
    refine ((hshort 1 (by decide) 3 (by decide)).2.2.2 _
      (((Metric.Trip.nil.edge (by decide)).jump hfree).jump hfree')).trans ?_
    decide +kernel
  · simp only [Adjacent, List.mem_cons, List.not_mem_nil, Prod.mk.injEq]
    tauto

end LPRounding.SteinerTree
