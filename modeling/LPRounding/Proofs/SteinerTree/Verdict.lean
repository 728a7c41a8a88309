import LPRounding.Proofs.Run.Verdict
import LPRounding.Proofs.SteinerTree.Answer
import LPRounding.Proofs.SteinerTree.Shortfall

/-!
Steiner trees: the verdict of the oracle on a point. A set of terminals is a side of a cut of the
network together with all components of which it holds a source, and that cut has room for what
leaves the set; what a maximum flow leaves within reach is no worse, even where a component is
reached by way of its sink. So measuring the terminals decides about all sets of them.
-/

namespace LPRounding.SteinerTree

set_option linter.unusedSectionVars false

variable {K S : Type} [Field K] [LinearOrder K] [IsStrictOrderedRing K] [FloorRing K]
  {p : SteinerTree K S} {entries : List (Nat × Component K × K)}

/-- A set of terminals with the components of which it holds a source. -/
def shore (entries : List (Nat × Component K × K)) (set : List Node) : Site → Bool
  | .vertex v => v ∈ set
  | .component j => entries.any fun e => e.1 = j && e.2.1.sources.any (· ∈ set)
  | _ => false

theorem shore_component (hn : (entries.map Prod.fst).Nodup) {e : Nat × Component K × K}
    (he : e ∈ entries) (set : List Node) :
    shore entries set (.component e.1) = e.2.1.sources.any (· ∈ set) := by
  rw [shore, Bool.eq_iff_iff, List.any_eq_true]
  constructor
  · rintro ⟨d, hd, hany⟩
    obtain ⟨heq, hsource⟩ := Bool.and_eq_true_iff.mp hany
    obtain rfl := List.inj_on_of_nodup_map hn hd he (of_decide_eq_true heq)
    exact hsource
  · exact fun hany => ⟨e, he, by simpa using hany⟩

theorem cutRoom_shore_le (p : SteinerTree K S) (hn : (entries.map Prod.fst).Nodup)
    (hnonneg : ∀ e ∈ entries, 0 ≤ e.2.2) (set : List Node) :
    (p.network entries).cutRoom
        ((p.network entries).vertices.toFinset.filter fun s => shore entries set s = true) ≤
      ((entries.filter fun e => leaves e.2.1 set).map fun e => e.2.2).sum := by
  have hr := p.routed_network entries
  refine p.cutRoom_le_leaving hn hnonneg (fun e he v hv hin => ?_) fun e he hin hout => ?_
  · have hset : v ∈ set := by simpa [shore] using (Finset.mem_filter.mp hin).2
    have hplace := (Network.mem_of_link? hr.valid ((p.laid_network hn e he).wide v hv)).2
    refine Finset.mem_filter.mpr ⟨List.mem_toFinset.mpr hplace, ?_⟩
    rw [shore_component hn he]
    exact List.any_eq_true.mpr ⟨v, hv, by simpa using hset⟩
  · have hsink := (Network.mem_of_link? hr.valid (p.laid_network hn e he).narrow).2
    have hin := (Finset.mem_filter.mp hin).2
    rw [shore_component hn he] at hin
    have hout : e.2.1.sink ∉ set := fun hset =>
      hout (Finset.mem_filter.mpr ⟨List.mem_toFinset.mpr hsink, by simpa [shore] using hset⟩)
    simp [leaves, hin, hout]

theorem root_notMem (hterms : p.terminals.Nodup) {v : Node} (hvt : v ∈ p.terminals.tail)
    {set : List Node} (hset : set ⊆ p.terminals.tail) : p.terminals.headD v ∉ set := by
  intro hroot
  have htail := hset hroot
  cases hp : p.terminals with
  | nil => simp [hp] at hvt
  | cons root rest =>
    rw [hp] at hterms htail
    exact (List.nodup_cons.mp hterms).1 htail

section Measured

variable [Backend K] {v : Node} {viol : Violation K Node} (hterms : p.terminals.Nodup)
  (hn : (entries.map Prod.fst).Nodup) (hpos : ∀ e ∈ entries, 0 < e.2.2)
  (hflow : (Backend.flow : FlowFinder Site K).Maximal) (hvt : v ∈ p.terminals.tail)

include hterms hn hpos hflow hvt

theorem le_sum_leaving (hv : p.measure (p.network entries) v = .ok viol) {set : List Node}
    (hset : set ⊆ p.terminals.tail) (hin : v ∈ set) :
    1 - viol.magnitude ≤ ((entries.filter fun e => leaves e.2.1 set).map fun e => e.2.2).sum := by
  have hr := p.routed_network entries
  obtain ⟨cut, hcut, hv⟩ := ok_bind_iff.mp hv
  obtain rfl := Except.ok.inj hv
  obtain ⟨hasked, hvalue, -⟩ := FlowFinder.of_siteCut hr.valid hcut
  let near := (p.network entries).vertices.toFinset.filter fun s => shore entries set s = true
  have hnear : .vertex v ∈ near :=
    Finset.mem_filter.mpr ⟨List.mem_toFinset.mpr hasked.2.1, by simpa [shore] using hin⟩
  have hfar : .vertex (p.terminals.headD v) ∉ near := fun hroot =>
    root_notMem hterms hvt hset (by simpa [shore] using (Finset.mem_filter.mp hroot).2)
  have hle := (hflow _ _ _ hasked).1.value_le (Finset.filter_subset _ _) hnear hfar
  rw [sub_sub_cancel, hvalue]
  exact hle.trans (p.cutRoom_shore_le hn (fun e he => (hpos e he).le) set)

theorem exists_sum_leaving_le (hsinks : ∀ e ∈ entries, e.2.1.sink ∈ p.terminals)
    (hv : p.measure (p.network entries) v = .ok viol) :
    ∃ set : List Node, set ⊆ p.terminals.tail ∧ v ∈ set ∧
      ((entries.filter fun e => leaves e.2.1 set).map fun e => e.2.2).sum ≤ 1 - viol.magnitude := by
  let exact : SteinerTree K S := { p with tolerance := ⟨0⟩ }
  obtain ⟨w, hw⟩ := exact.exists_measure hterms entries hvt
  have hmagnitude : w.magnitude = viol.magnitude := by
    have hr := p.routed_network entries
    obtain ⟨cut, hcut, hv⟩ := ok_bind_iff.mp hv
    obtain ⟨cut', hcut', hw⟩ := ok_bind_iff.mp hw
    obtain ⟨-, hvalue, -⟩ := FlowFinder.of_siteCut hr.valid hcut
    obtain ⟨-, hvalue', -⟩ := FlowFinder.of_siteCut hr.valid hcut'
    rw [← Except.ok.inj hv, ← Except.ok.inj hw, hvalue, hvalue']
  obtain ⟨-, hin, hsub⟩ := exact.separates_of_measure le_rfl hflow hvt hw
  have hle := exact.sum_leaving_witness_le hn le_rfl hflow hpos hsinks hw
  rw [hmagnitude, zero_mul, add_zero] at hle
  exact ⟨w.witness, hsub, hin, hle⟩

/-- The magnitude is what is missing on the least of the sets that hold the candidate. -/
theorem measure_le_iff (hsinks : ∀ e ∈ entries, e.2.1.sink ∈ p.terminals)
    (hv : p.measure (p.network entries) v = .ok viol) (a : K) :
    viol.magnitude ≤ a ↔ ∀ set : List Node, set ⊆ p.terminals.tail → v ∈ set →
      1 - a ≤ ((entries.filter fun e => leaves e.2.1 set).map fun e => e.2.2).sum := by
  constructor
  · intro hle set hset hin
    have := le_sum_leaving hterms hn hpos hflow hvt hv hset hin
    linarith
  · intro hall
    obtain ⟨set, hset, hin, hle⟩ := exists_sum_leaving_le hterms hn hpos hflow hvt hsinks hv
    have := hall set hset hin
    linarith

end Measured

theorem exists_prepare {m : Model K} {x : Solution K} (hx : m.solution = some x)
    (hm : m.columns.length = p.components.length) (hl : x.values.length = p.components.length) :
    p.prepare m = .ok (p.network (p.shown x.values), p.terminals.tail) := by
  obtain ⟨entries, hentries⟩ := exists_mapM
    (fun e : Component K × Nat => return (e.2, e.1, ← m.columnValue e.2)) p.components.zipIdx
    fun e he => ⟨(e.2, e.1, x.values.getD e.2 0), ok_bind_iff.mpr
      ⟨_, Model.exists_values hx (hl.trans hm.symm) hm.symm e he, rfl⟩⟩
  have hprep : p.prepare m = .ok _ := ok_bind_iff.mpr ⟨entries, hentries, rfl⟩
  obtain ⟨hn, -⟩ := prepare_eq_ok hx hprep
  rw [hprep, ← hn]

theorem clear_iff [Backend K] (hterms : p.terminals.Nodup)
    (hsinks : ∀ c ∈ p.components, c.sink ∈ p.terminals) (h0 : 0 ≤ p.tolerance.epsilon)
    (hflow : (Backend.flow : FlowFinder Site K).Maximal) (x : List K) :
    Search.Clear p.tolerance (p.measure (p.network (p.shown x))) p.terminals.tail ↔
      ∀ set : List Node, set ≠ [] → set ⊆ p.terminals.tail → 1 - p.tolerance.epsilon ≤
        (((p.shown x).filter fun e => leaves e.2.1 set).map fun e => e.2.2).sum := by
  have hpos : ∀ e ∈ p.shown x, 0 < e.2.2 := fun e he => h0.trans_lt (of_mem_shown he).2
  have hsinks : ∀ e ∈ p.shown x, e.2.1.sink ∈ p.terminals :=
    fun e he => hsinks _ (of_mem_shown he).1
  constructor
  · intro hclear set hne hset
    obtain ⟨v, hin⟩ := List.exists_mem_of_ne_nil set hne
    obtain ⟨viol, hv, hle⟩ := hclear v (hset hin)
    exact (measure_le_iff hterms (p.nodup_shown x) hpos hflow (hset hin) hsinks hv _).mp hle
      set hset hin
  · intro hall v hvt
    obtain ⟨viol, hv⟩ := p.exists_measure hterms (p.shown x) hvt
    refine ⟨viol, hv, ?_⟩
    rw [measure_le_iff hterms (p.nodup_shown x) hpos hflow hvt hsinks hv]
    exact fun set hset hin => hall set (List.ne_nil_of_mem hin) hset

/-- A check of a point always ends. It accepts the point if and only if, for every set of terminals
without the root, the components above the tolerance that leave the set have a value of one
together, up to the tolerance. If it does not, it records a violation with a set of terminals that
holds the candidate and not the root, and the row that is added next asks for one of the components
that leave the set. -/
theorem feasible_iff_sets_left [Backend K] [Dice S K] {s : Run (SteinerTree K S) K}
    {x : Solution K} (hterms : s.problem.terminals.Nodup)
    (hsinks : ∀ c ∈ s.problem.components, c.sink ∈ s.problem.terminals)
    (h0 : 0 ≤ s.problem.tolerance.epsilon) (hflow : (Backend.flow : FlowFinder Site K).Maximal)
    (hx : s.lp.solution = some x) (hm : s.lp.columns.length = s.problem.components.length)
    (hl : x.values.length = s.problem.components.length) :
    ∃ b t, Returns Roundable.feasible s b t ∧
      (b = true ↔ ∀ set : List Node, set ≠ [] → set ⊆ s.problem.terminals.tail →
        1 - s.problem.tolerance.epsilon ≤
          (((s.problem.shown x.values).filter fun e => leaves e.2.1 set).map fun e => e.2.2).sum) ∧
      (b = false → ∃ v u row, t.problem.oracle.violation = some v ∧ v.candidate ∈ v.witness ∧
        v.witness ⊆ s.problem.terminals ∧ s.problem.terminals.headD v.candidate ∉ v.witness ∧
        Returns Roundable.separate t s.lp.rows.length u ∧
        u.lp = { s.lp with rows := s.lp.rows ++ [row] } ∧ row.bound = ⟨.lower, 1, 0⟩ ∧
        row.Sums fun j => ∃ c, s.problem.components[j]? = some c ∧ leaves c v.witness = true) := by
  obtain ⟨b, t, ht, hb, hreject⟩ := Oracle.exists_verdict home checker tolerance
    (fun _ _ => rfl) (fun _ _ _ => rfl) (exists_prepare hx hm hl)
    fun _ => s.problem.exists_measure hterms _
  refine ⟨b, t, ht, hb.trans (clear_iff hterms hsinks h0 hflow x.values), fun hfalse => ?_⟩
  obtain ⟨v, hrec, ⟨c, hc, hv⟩, -, u, hu, hadded⟩ := hreject hfalse
  obtain ⟨hside, hin, hsub⟩ := separates_of_measure h0 hflow hc hv
  obtain ⟨cut, -, hval⟩ := ok_bind_iff.mp hv
  have hcand : v.candidate = c := by rw [← Except.ok.inj hval]
  rw [← hcand] at hc hin
  refine ⟨v, u, s.problem.cutRow v, hrec, hin, fun w hw => List.mem_of_mem_tail (hsub w hw),
    root_notMem hterms hc hsub, hu, hadded, ?_, sums_cover .lower v.side 0 (leaves · v.witness) _⟩
  rw [← hside]
  rfl

def forkComponents : List (Component ℚ) := [
  ⟨.number 1, [.number 2, .number 4], [.number 0], 4⟩, ⟨.number 2, [.number 4], [], 3⟩,
  ⟨.number 4, [.number 2], [], 3⟩, ⟨.number 1, [.number 4], [], 3⟩]

def forkRun : Run (SteinerTree ℚ Unit) ℚ where
  problem :=
    { tolerance := ⟨1 / 10⟩, graph := broom, costName := "cost"
      terminals := [.number 1, .number 2, .number 4], steiner := [.number 0, .number 3]
      vertices := [.number 1, .number 2, .number 4, .number 0, .number 3]
      limit := 3, sink := .ofList [], solutionCost := 0, components := forkComponents
      oracle := { strategy := .first, dice := () }, dice := () }
  lp := { model forkComponents with solution := some ⟨[1 / 2, 1, 1, 1 / 10], 0⟩ }

theorem fork_verdict :
    let _ := flowBackend
    let _ : Dice Unit ℚ := Dice.zero
    ∃ t v u, Returns Roundable.feasible forkRun false t ∧
      t.problem.oracle.violation = some v ∧ v.candidate ∈ v.witness ∧ .number 1 ∉ v.witness ∧
      Returns Roundable.separate t 0 u := by
  intro _ _
  obtain ⟨b, t, ht, hb, hfalse⟩ := feasible_iff_sets_left (s := forkRun) (by decide) (by decide)
    (by norm_num [forkRun]) (FlowFinder.largest_maximal _) rfl rfl rfl
  obtain rfl : b = false := by
    refine Bool.eq_false_iff.mpr fun htrue => ?_
    have hle := hb.mp htrue [.number 2, .number 4] (by decide) (by decide)
    exact absurd hle (by decide +kernel)
  obtain ⟨v, u, row, hv, hin, -, hroot, hu, -⟩ := hfalse rfl
  exact ⟨t, v, u, ht, hv, hin, hroot, hu⟩

end LPRounding.SteinerTree
