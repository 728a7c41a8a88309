import LPRounding.Proofs.SteinerTree.Answer
import LPRounding.Proofs.SteinerTree.Network
import LPRounding.Proofs.LP.Honest
import LPRounding.Proofs.Run.Generation
import LPRounding.Proofs.Run.Progress
import LPRounding.Proofs.Run.Rounds

/-!
Runs for a Steiner tree always end. Taking every component is a point of every model, so no solve is
infeasible; a point that is accepted has a component above the tolerance while two terminals are
left, so there is one to pick; and what is picked merges a terminal away.
-/

namespace LPRounding

/-- Weighted draws succeed where some weight is positive, and then draw one that is. -/
def Dice.Fair (S K : Type) [Scalar K] [Dice S K] : Prop :=
  ∀ (weights : List K) (d : S), (∀ w ∈ weights, 0 ≤ w) → (∃ w ∈ weights, 0 < w) →
    ∃ i d' w, Dice.weighted weights d = .ok (i, d') ∧ weights[i]? = some w ∧ 0 < w

@[reducible] def Dice.firstPositive {K : Type} [Scalar K] : Dice Unit K where
  below _ s := (0, s)
  unit s := (0, s)
  weighted weights s :=
    match weights.findIdx? (0 < ·) with
    | some i => .ok (i, s)
    | none => .error .weightsNotPositive

theorem Dice.firstPositive_fair {K : Type} [Scalar K] :
    let _ : Dice Unit K := Dice.firstPositive
    Dice.Fair Unit K := by
  intro _ weights d _ hpos
  obtain ⟨w, hw, hlt⟩ := hpos
  cases hi : weights.findIdx? (0 < ·) with
  | none =>
    rw [List.findIdx?_eq_none_iff] at hi
    simpa [hlt] using hi w hw
  | some i =>
    obtain ⟨hi', hlt, -⟩ := List.findIdx?_eq_some_iff_getElem.mp hi
    refine ⟨i, d, weights[i], ?_, List.getElem?_eq_getElem hi', by simpa using hlt⟩
    show (match weights.findIdx? (0 < ·) with
      | some i => Except.ok (i, d)
      | none => .error Fault.weightsNotPositive) = .ok (i, d)
    rw [hi]

namespace SteinerTree

set_option linter.unusedSectionVars false

variable {K S : Type} [Field K] [LinearOrder K] [IsStrictOrderedRing K] [FloorRing K]
  {p q : SteinerTree K S} {m₀ : Metric K} {m : Model K}

/-- There is a component from every terminal to every other one, and each merges some terminals. -/
structure Stocked (q : SteinerTree K S) : Prop where
  nodup : q.terminals.Nodup
  limit : 2 ≤ q.limit
  nonneg : 0 ≤ q.tolerance.epsilon
  small : q.tolerance.epsilon < 1
  pairs : ∀ u ∈ q.terminals, ∀ v ∈ q.terminals, u ≠ v →
    ∃ c ∈ q.components, c.sink = v ∧ u ∈ c.sources
  sources : ∀ c ∈ q.components, c.sources ≠ [] ∧ c.sources.Nodup
  metric : q.components ≠ [] → ∃ m, q.metric = some m

structure Posed (q : SteinerTree K S) (m : Model K) : Prop extends Stocked q where
  loaded : m.loaded = true
  columns : m.columns = q.components.map column
  rows : ∀ r ∈ m.rows, r ∈ q.directedCuts

theorem exists_sublist {α : Type} [DecidableEq α] {xs : List α} (hn : xs.Nodup) {u v : α}
    (hu : u ∈ xs) (hv : v ∈ xs) (huv : u ≠ v) :
    ∃ set : List α, set.Sublist xs ∧ set.length = 2 ∧ u ∈ set ∧ v ∈ set := by
  refine ⟨xs.filter fun w => w = u ∨ w = v, List.filter_sublist, ?_, by simp [hu], by simp [hv]⟩
  have hperm : (xs.filter fun w => w = u ∨ w = v).Perm [u, v] := by
    refine (List.perm_ext_iff_of_nodup (hn.filter _) (by simpa using huv)).mpr fun w => ?_
    simp only [List.mem_filter, decide_eq_true_eq, List.mem_cons, List.not_mem_nil, or_false,
      and_iff_right_iff_imp]
    rintro (rfl | rfl)
    · exact hu
    · exact hv
  exact hperm.length_eq

theorem stocked_of_all {m : Metric K} {cs : List (Component K)} (hn : q.terminals.Nodup)
    (hlimit : 2 ≤ q.limit) (h0 : 0 ≤ q.tolerance.epsilon) (h1 : q.tolerance.epsilon < 1)
    (hcs : Component.all q.tolerance m q.place q.terminals q.steiner q.limit = .ok cs) :
    Stocked { q with metric := some m, components := cs } := by
  refine ⟨hn, hlimit, h0, h1, fun u hu v hv huv => ?_, fun c hc => ?_, fun _ => ⟨_, rfl⟩⟩
  · obtain ⟨set, hset, hlen, hus, hvs⟩ := exists_sublist hn hu hv huv
    obtain ⟨c, hc, hsink, hsources⟩ := Component.exists_mem_all hcs
      (Component.mem_sets.mpr ⟨hset, hlen.ge, hlen ▸ hlimit⟩) hvs
    exact ⟨c, hc, hsink, by simp [hsources, hus, huv]⟩
  · obtain ⟨set, hset, hsink, hsources, -⟩ := (Component.mem_all hcs).mp hc
    obtain ⟨hset, hlen, -⟩ := Component.mem_sets.mp hset
    have hset := hn.sublist hset
    refine ⟨fun hnil => ?_, hsources ▸ hset.filter _⟩
    -- without sources the set would be its sink alone, but it has two members
    have hsub : set ⊆ [c.sink] := by
      intro v hv
      by_contra hne
      have hv : v ∈ c.sources := by simpa [hsources, hv] using hne
      rw [hnil] at hv
      cases hv
    have := (hset.subperm hsub).length_le
    rw [List.length_singleton] at this
    omega

theorem stocked_of_few (hn : q.terminals.Nodup) (hlimit : 2 ≤ q.limit)
    (h0 : 0 ≤ q.tolerance.epsilon) (h1 : q.tolerance.epsilon < 1) (hlt : q.terminals.length < 2) :
    Stocked { q with components := [] } := by
  refine ⟨hn, hlimit, h0, h1, fun u hu v hv huv => ?_, by simp, by simp⟩
  obtain ⟨set, hset, hlen, -⟩ := exists_sublist hn hu hv huv
  have := hset.length_le
  omega

theorem Bought.exists_generate {added : List Node} {pairs : List (Node × Node)}
    (h : Bought p m₀ added pairs q) (hp : Ready p m₀) (hlimit : 2 ≤ q.limit)
    (h0 : 0 ≤ q.tolerance.epsilon) (h1 : q.tolerance.epsilon < 1) :
    ∃ q', q.generate = .ok q' ∧ Stocked q' ∧ q'.terminals = q.terminals := by
  have hn : q.terminals.Nodup := by
    have := hp.vertices ▸ hp.nodup
    exact (List.nodup_append.mp this).1.sublist h.terminals
  by_cases hlt : q.terminals.length < 2
  · exact ⟨_, by rw [SteinerTree.generate, if_pos hlt], stocked_of_few hn hlimit h0 h1 hlt, rfl⟩
  · obtain ⟨price, -, hcs⟩ := Component.exists_all q.tolerance (current m₀ q) q.place q.terminals
      q.steiner q.limit
    refine ⟨_, ?_, stocked_of_all hn hlimit h0 h1 hcs, rfl⟩
    rw [SteinerTree.generate, if_neg hlt]
    cases hm : q.metric with
    | some m =>
      have hcurrent : current m₀ q = m := by rw [current, hm, Option.getD_some]
      rw [hcurrent] at hcs ⊢
      exact ok_bind_iff.mpr ⟨_, rfl, ok_bind_iff.mpr ⟨_, hcs, rfl⟩⟩
    | none =>
      have hcurrent : current m₀ q = m₀ := by rw [current, hm, Option.getD_none]
      have hsame : q.distances = p.distances := by
        simp only [SteinerTree.distances, h.graph, h.costName, h.vertices]
      rw [hcurrent] at hcs ⊢
      simp only [hsame, hp.distances]
      exact ok_bind_iff.mpr ⟨_, rfl, ok_bind_iff.mpr ⟨_, hcs, rfl⟩⟩

theorem Stocked.exists_leaves (h : Stocked q) {set : List Node} (hne : set ≠ [])
    (hsub : set ⊆ q.terminals.tail) : ∃ c ∈ q.components, leaves c set = true := by
  obtain ⟨v, hv⟩ := List.exists_mem_of_ne_nil set hne
  cases hp : q.terminals with
  | nil => simpa [hp] using hsub hv
  | cons root rest =>
    rw [hp, List.tail_cons] at hsub
    have hroot : root ∉ rest := (List.nodup_cons.mp (hp ▸ h.nodup)).1
    have hvr : v ≠ root := by
      rintro rfl
      exact hroot (hsub hv)
    obtain ⟨c, hc, hsink, hvc⟩ := h.pairs v (hp ▸ List.mem_cons_of_mem _ (hsub hv)) root
      (hp ▸ List.mem_cons_self) hvr
    refine ⟨c, hc, ?_⟩
    simp only [leaves, Bool.and_eq_true, decide_eq_true_eq, List.any_eq_true]
    exact ⟨fun hin => hroot (hsub (hsink ▸ hin)), v, hvc, hv⟩

theorem weigh_cover_ones {n : Nat} {js : List Nat} (hjs : ∀ j ∈ js, j < n) (lo up : K) :
    weigh (cover .lower lo up js).coefs (List.replicate n 1) = js.length := by
  have hone : ∀ j ∈ js, (List.replicate n (1 : K)).getD j 0 = 1 := by
    intro j hj
    simp [hjs j hj]
  rw [weigh_eq]
  simp only [cover, List.map_map, Function.comp_def, one_mul]
  rw [List.map_congr_left hone]
  simp

theorem Posed.admits_ones (h : Posed q m) : m.Admits (List.replicate m.columns.length 1) := by
  refine ⟨by simp, fun j c v hc hv => ?_, fun r hr _ => ?_⟩
  · rw [h.columns, List.getElem?_map, Option.map_eq_some_iff] at hc
    obtain ⟨c, -, rfl⟩ := hc
    obtain ⟨-, rfl⟩ : j < m.columns.length ∧ (1 : K) = v := by
      simpa [List.getElem?_replicate] using hv
    simp [Column.Admits, column, Bound.Admits]
  · obtain ⟨set, hne, hsub, rfl⟩ := h.rows r hr
    obtain ⟨c, hc, hleaves⟩ := h.exists_leaves hne hsub
    obtain ⟨j, hj⟩ := List.mem_iff_getElem?.mp hc
    have hmem : j ∈ Model.positions (leaves · set) q.components :=
      Model.mem_positions.mpr ⟨c, hj, hleaves⟩
    show (1 : K) ≤ weigh _ _
    rw [weigh_cover_ones (fun i hi => ?_)]
    · exact_mod_cast List.length_pos_of_mem hmem
    · obtain ⟨d, hd, -⟩ := Model.mem_positions.mp hi
      simpa [h.columns] using (List.getElem?_eq_some_iff.mp hd).1

theorem Posed.range (h : Posed q m) {x : List K} (hx : m.Admits x) (j : Nat) :
    0 ≤ x.getD j 0 ∧ x.getD j 0 ≤ 1 := by
  by_cases hj : j < m.columns.length
  · have hget : x[j]? = some (x.getD j 0) := by simp [hx.length, hj]
    obtain ⟨c, hc⟩ : ∃ c, m.columns[j]? = some (column c) := by
      have hlt : j < q.components.length := by simpa [h.columns] using hj
      exact ⟨q.components[j], by simp [h.columns, hlt]⟩
    have hadm := hx.columns j _ _ hc hget
    simpa [Column.Admits, column, Bound.Admits] using hadm
  · simp [List.getElem?_eq_none (hx.length.trans_le (not_lt.mp hj))]

section Runs

variable [Backend K] [Dice S K]

/-- The oracle has accepted the last point of the model. -/
structure Point (q : SteinerTree K S) (m : Model K) : Prop extends Posed q m where
  solved : m.Solved
  accepts : Oracle.Accepts checker q.tolerance q m

theorem search_keeps (hsolver : (Backend.solver : Solver K).Sound)
    (hflow : (Backend.flow : FlowFinder Site K).Maximal) :
    Oracle.Keeps (S := S) home checker tolerance (Posed (K := K) (S := S)) where
  feasible := rfl
  separate := rfl
  solve h hs := by
    obtain ⟨x, rfl, -⟩ := Model.returns_solve hs
    exact ⟨⟨h.toStocked, h.loaded, h.columns, h.rows⟩, Model.solved_of_solve hsolver hs⟩
  search h := ⟨⟨h.nodup, h.limit, h.nonneg, h.small, h.pairs, h.sources, h.metric⟩, h.loaded,
    h.columns, h.rows⟩
  append := by
    intro q m v h hfinds
    refine ⟨h.toStocked, h.loaded, h.columns, fun r hr => ?_⟩
    rcases List.mem_append.mp hr with hr | hr
    · exact h.rows r hr
    · exact List.mem_singleton.mp hr ▸ cutRow_mem h.nonneg hflow hfinds
  get_set _ _ := rfl
  row_set _ _ _ := rfl

theorem search_total (hsolver : (Backend.solver : Solver K).Settles) :
    Oracle.Total checker (Posed (K := K) (S := S)) where
  solve {q m} h := by
    refine Model.exists_optimal hsolver h.loaded ⟨_, h.admits_ones⟩ 1 fun x hx j => ?_
    obtain ⟨hlo, hup⟩ := h.range hx j
    exact ⟨by linarith, hup⟩
  prepare {q m} h hx := by
    obtain ⟨x, hx, hadm⟩ := hx
    let read (e : Component K × Nat) : Except (Fault K) (Nat × Component K × K) := do
      return (e.2, e.1, ← m.columnValue e.2)
    obtain ⟨entries, hentries⟩ := exists_mapM read q.components.zipIdx fun e he => by
      have hj : e.2 < m.columns.length := by
        rw [h.columns, List.length_map]
        exact List.snd_lt_of_mem_zipIdx he
      exact ⟨_, ok_bind_iff.mpr ⟨_, Model.columnValue_eq hx hadm.length hj, rfl⟩⟩
    refine ⟨_, _, ok_bind_iff.mpr ⟨entries, hentries, rfl⟩, fun v hv => ?_⟩
    exact exists_measure h.nodup _ hv

theorem generating_ends (hsolver : (Backend.solver : Solver K).Settles)
    (hflow : (Backend.flow : FlowFinder Site K).Maximal) {s : Run (SteinerTree K S) K}
    (h : Posed s.problem s.lp) : Ends SolveRule.generating.apply s
      (fun st t => st = .optimal ∧ Point t.problem t.lp ∧ t.iterations = s.iterations ∧
        t.problem.terminals = s.problem.terminals) (· = .unfinished) := by
  have hkeeps := search_keeps (S := S) hsolver.sound hflow
  refine (hkeeps.generating_ends (search_total hsolver) h).mono (fun st t hr ht => ?_) fun _ => id
  obtain ⟨rfl, hi⟩ := ht
  obtain ⟨q, o, hq, hp, hx, ha⟩ := hkeeps.generating h hr
  have hsame : t.problem.terminals = s.problem.terminals :=
    Oracle.generating_problem (h := home) (k := checker) rfl rfl
      (fun q => q.terminals = s.problem.terminals) (fun _ _ h => h) rfl hr
  have hpoint : Point q t.lp := ⟨hp, hx, ha⟩
  refine ⟨rfl, ?_, hi, hsame⟩
  rw [hq]
  exact ⟨hkeeps.search hp, hx, ha⟩

/-- While two terminals are left, some component of a point is above the tolerance: else every
terminal would miss all of its cut. -/
theorem Point.exists_above (h : Point q m) (hflow : (Backend.flow : FlowFinder Site K).Sound)
    (h2 : 2 ≤ q.terminals.length) :
    ∃ (j : Nat) (x : K), j < q.components.length ∧ m.columnValue j = .ok x ∧
      q.tolerance.epsilon < x := by
  by_contra hno
  push Not at hno
  obtain ⟨n, cs, hprep, hclear⟩ := h.accepts
  obtain ⟨entries, hentries, hprep⟩ := ok_bind_iff.mp hprep
  obtain ⟨rfl, rfl⟩ := Prod.mk.inj (Except.ok.inj hprep)
  have hnone : entries.filter (fun e => q.tolerance.above e.2.2 0) = [] := by
    rw [List.filter_eq_nil_iff]
    intro e he
    obtain ⟨⟨c, j⟩, hc, heq⟩ := exists_of_mapM hentries he
    obtain ⟨x, hx, heq⟩ := ok_bind_iff.mp heq
    obtain rfl := Except.ok.inj heq
    simpa using hno j x (by simpa using List.snd_lt_of_mem_zipIdx hc) hx
  obtain ⟨v, hv⟩ : ∃ v, v ∈ q.terminals.tail := by
    refine List.exists_mem_of_ne_nil _ fun hnil => ?_
    have := congrArg List.length hnil
    simp at this
    omega
  obtain ⟨viol, hm, hle⟩ := hclear v hv
  have hm : q.measure (q.network (entries.filter fun e => q.tolerance.above e.2.2 0)) v =
      .ok viol := hm
  rw [hnone] at hm
  have := one_le_magnitude hflow hm
  exact absurd h.small (not_lt.mpr (this.trans hle))

def Steady (q r : SteinerTree K S) : Prop := r.limit = q.limit ∧ r.tolerance = q.tolerance

theorem mergeAll_ends {sink : Node} {sources : List Node} (hsink : sink ∈ q.vertices)
    (hvertices : ∀ v ∈ sources, v ∈ q.vertices) (hterminals : ∀ v ∈ sources, v ∈ q.terminals)
    (hn : sources.Nodup) (hm : ∃ m, q.metric = some m) :
    Ends (sources.forM fun v => do merge sink v; retire v) q
      (fun _ r => r.terminals.length + sources.length = q.terminals.length ∧ Steady q r)
      fun _ => False := by
  induction sources generalizing q with
  | nil => exact ⟨rfl, rfl, rfl⟩
  | cons v vs ih =>
    obtain ⟨m, hm⟩ := hm
    obtain ⟨hv, hvs⟩ := List.forall_mem_cons.mp hterminals
    obtain ⟨hvn, hn⟩ := List.nodup_cons.mp hn
    simp only [ends_forM_cons, merge, retire, ends_bind, ends_get, hsink,
      hvertices v List.mem_cons_self, not_true_eq_false, if_false, hm, ends_set, hv]
    refine (ih (by exact hsink) (fun w hw => by exact hvertices w (List.mem_cons_of_mem _ hw))
      (fun w hw => ?_) hn ⟨_, rfl⟩).mono (fun _ r _ hr => ?_) fun _ => id
    · refine (List.mem_erase_of_ne ?_).mpr (hvs w hw)
      rintro rfl
      exact hvn hw
    · have hlen : r.terminals.length + vs.length = (q.terminals.erase v).length := hr.1
      have herase := List.length_erase_of_mem hv
      have hpos := List.length_pos_of_mem hv
      refine ⟨?_, hr.2⟩
      rw [List.length_cons]
      omega

theorem pick_ends (hfair : Dice.Fair S K) (hp : Ready p m₀)
    (hflow : (Backend.flow : FlowFinder Site K).Sound) {s : Run (SteinerTree K S) K}
    (hk : Kept p m₀ s.problem) (h : Point s.problem s.lp) (h2 : 2 ≤ s.problem.terminals.length) :
    Ends pick s (fun _ t => t.problem.terminals.length < s.problem.terminals.length ∧
      Steady s.problem t.problem ∧ t.iterations = s.iterations) fun _ => False := by
  obtain ⟨⟨added, pairs, hb⟩, hoffers⟩ := hk
  obtain ⟨x, hx, hadm⟩ := h.solved
  have hlen : s.lp.columns.length = s.problem.components.length := by simp [h.columns]
  obtain ⟨values, hvalues⟩ := exists_mapM s.lp.columnValue
    (List.range s.problem.components.length) fun j hj => ⟨_, Model.columnValue_eq hx hadm.length
      (hlen ▸ List.mem_range.mp hj)⟩
  have hread := eq_map_of_mapM (fun j y hy => Model.eq_getD_of_columnValue hx hy) hvalues
  obtain ⟨i, d, w, hdraw, hw, hpos⟩ := hfair (values.map fun x => Scalar.larger x 0) s.problem.dice
    (by simp) (by
      obtain ⟨j, y, hj, hy, hlt⟩ := h.exists_above hflow h2
      obtain rfl := Model.eq_getD_of_columnValue hx hy
      refine ⟨Scalar.larger (x.values.getD j 0) 0, ?_, ?_⟩
      · rw [hread]
        exact List.mem_map_of_mem (List.mem_map_of_mem (List.mem_range.mpr hj))
      · simpa using h.nonneg.trans_lt hlt)
  have hi : i < s.problem.components.length := by
    have := (List.getElem?_eq_some_iff.mp hw).1
    simpa [hread] using this
  have hc := List.getElem?_eq_getElem hi
  generalize s.problem.components[i] = c at hc
  have hmem := List.mem_of_getElem? hc
  have hoffer := hoffers c hmem
  obtain ⟨hne, hnodup⟩ := h.sources c hmem
  have hvertices {v : Node} (hv : v ∈ s.problem.terminals) : v ∈ s.problem.vertices :=
    hb.vertices ▸ hp.terminals_subset (hb.terminals.subset hv)
  simp only [pick, select, ends_bind, Action.ends_problem, Action.ends_model,
    ends_lift_ok hvalues, Action.ends_onProblem, ends_get, ends_lift_ok hdraw, ends_set, ends_pure,
    hc, Action.ends_note, accept, contract, ends_modify]
  refine (mergeAll_ends (q := SteinerTree.take c { s.problem with dice := d })
    (hvertices (hoffer.terminals _ List.mem_cons_self))
    (fun v hv => hvertices (hoffer.terminals v (List.mem_cons_of_mem _ hv)))
    (fun v hv => hoffer.terminals v (List.mem_cons_of_mem _ hv)) hnodup
    (h.metric (List.ne_nil_of_mem hmem))).mono (fun _ r _ hr => ?_) fun _ => id
  obtain ⟨hlen, hsteady⟩ := hr
  have := List.length_pos_iff.mpr hne
  refine ⟨?_, hsteady, trivial⟩
  have hlen : r.terminals.length + c.sources.length = s.problem.terminals.length := hlen
  show r.terminals.length < s.problem.terminals.length
  omega

theorem build_ends (hp : Ready p m₀) {s : Run (SteinerTree K S) K} (hk : Kept p m₀ s.problem)
    (hlimit : 2 ≤ s.problem.limit) (h0 : 0 ≤ s.problem.tolerance.epsilon)
    (h1 : s.problem.tolerance.epsilon < 1) :
    Ends build s (fun _ t => Posed t.problem t.lp ∧
      t.problem.terminals = s.problem.terminals ∧ t.iterations = s.iterations) fun _ => False := by
  obtain ⟨⟨added, pairs, hb⟩, -⟩ := hk
  obtain ⟨q, hq, hstock, hsame⟩ := hb.exists_generate hp hlimit h0 h1
  simp only [build, ends_bind, Action.ends_problem, ends_lift_ok hq, ends_modify]
  exact ⟨⟨hstock, rfl, rfl, fun r hr => by cases hr⟩, hsame, trivial⟩

theorem two_le_of_stop {s t : Run (SteinerTree K S) K}
    (h : Returns (policies (K := K) (S := S)).stop s false t) :
    2 ≤ s.problem.terminals.length := by
  simp only [policies, returns_bind, Action.returns_problem, returns_pure] at h
  obtain ⟨_, _, ⟨rfl, rfl⟩, hb, -⟩ := h
  exact Nat.succ_le_of_lt (by simpa using hb)

theorem turn_ends (hfair : Dice.Fair S K) (hp : Ready p m₀)
    (hflow : (Backend.flow : FlowFinder Site K).Sound) {s : Run (SteinerTree K S) K}
    (hk : Kept p m₀ s.problem) (h : Point s.problem s.lp) (h2 : 2 ≤ s.problem.terminals.length) :
    Ends (Engine.turn policies) s (fun _ t => (Kept p m₀ t.problem ∧ Posed t.problem t.lp) ∧
      t.problem.terminals.length < s.problem.terminals.length ∧ t.iterations = s.iterations + 1)
      fun _ => False := by
  simp only [Engine.turn, Engine.beginIteration, Engine.dependentRound, policies, ends_bind,
    ends_modify, ends_get, ends_pure]
  refine (pick_ends (s := { s with iterations := s.iterations + 1 }) hfair hp hflow hk h h2).mono
    (fun _ t ht hgood => ?_) fun _ => id
  obtain ⟨hlt, ⟨hlimit, htol⟩, hi⟩ := hgood
  have hkt : Kept p m₀ t.problem :=
    Kept.pick (s := { s with iterations := s.iterations + 1 }) hk hp ht
  have hlimit : 2 ≤ t.problem.limit := hlimit ▸ h.limit
  have hnonneg : 0 ≤ t.problem.tolerance.epsilon := htol ▸ h.nonneg
  have hsmall : t.problem.tolerance.epsilon < 1 := htol ▸ h.small
  simp only [Action.ends_onModel, Model.clear, ends_modify]
  refine (build_ends (s := { t with lp := { name := t.lp.name, direction := t.lp.direction } }) hp
    hkt hlimit hnonneg hsmall).mono (fun _ u hu hgood => ?_) fun _ => id
  obtain ⟨hposed, hsame, hiu⟩ := hgood
  simp only [Action.ends_model, Action.ends_note]
  refine ⟨⟨Kept.build (by exact hkt) hp hu, hposed⟩, ?_, hiu.trans hi⟩
  show u.problem.terminals.length < _
  rw [hsame]
  exact hlt

theorem asked_eq (n : Nat) :
    Engine.asked (policies (K := K) (S := S)) n = SolveRule.generating.apply := by
  cases n <;> rfl

theorem policies_advances (hfair : Dice.Fair S K) (hp : Ready p m₀)
    (hsolver : (Backend.solver : Solver K).Settles)
    (hflow : (Backend.flow : FlowFinder Site K).Maximal) {s : Run (SteinerTree K S) K}
    (hhalts : ∀ n t, Engine.Turns policies s (.built n) t →
      ∀ u, SolveRule.generating.apply t ≠ .error .unfinished u) :
    Engine.Advances policies s (fun q m => Kept p m₀ q ∧ Posed q m)
      (fun q m => Kept p m₀ q ∧ Point q m) fun q => q.terminals.length where
  solve {n t} ht hbase := by
    obtain ⟨hgood, hbad⟩ := ends_iff.mp (generating_ends hsolver hflow hbase.2)
    rw [asked_eq]
    cases hr : (SolveRule.generating.apply : Action (SteinerTree K S) K Status) t with
    | ok st u =>
      obtain ⟨rfl, hpoint, hi, hsame⟩ := hgood st u hr
      exact ⟨u, hr, ⟨(policies_carries hp).solve hbase.1 hr, hpoint⟩, by rw [hsame], hi⟩
    | error e u => exact absurd (hbad e u hr ▸ hr) (hhalts n t ht u)
  stop t := ⟨_, rfl⟩
  turn {t} hpoint hstop := by
    obtain ⟨_, u, hu, hbase, hlt, hi⟩ :=
      (turn_ends hfair hp hflow.sound hpoint.1 hpoint.2 (two_le_of_stop hstop)).exists_returns
    exact ⟨u, hu, hbase, hlt, hi⟩
  finish {t} hpoint := by
    obtain ⟨x, hx, -⟩ := hpoint.2.solved
    have hobj : t.lp.objective = .ok x.objective := by
      simp [Model.objective, Model.lastSolution, hx, pure, bind, Except.bind, Except.pure]
    have hends : Ends (Engine.finish policies) t (fun out u => out.status = .optimal ∧
        u.problem.terminals.length = t.problem.terminals.length ∧ u.iterations = t.iterations)
        fun _ => False := by
      simp only [Engine.finish, policies, ends_bind, ends_pure, Action.ends_model,
        ends_lift_ok hobj, ends_get, Action.ends_note]
      exact ⟨trivial, trivial, trivial⟩
    exact hends.exists_returns

theorem settings_of_make {ε : K} {g : Graph K} {terminals : List Node}
    {steiner : Option (List Node)} {costName : String} {limit : Int} {entries : List Choice}
    {strategy : Strategy} {searchDice pickDice : S}
    (h : make ε g terminals steiner costName limit entries strategy searchDice pickDice = .ok p) :
    p.limit = limit.toNat ∧ p.tolerance.epsilon = ε ∧ 0 ≤ ε := by
  unfold make at h
  split at h
  · cases h
  obtain ⟨t, ht, h⟩ := ok_bind_iff.mp h
  obtain ⟨h0, rfl⟩ := Tolerance.ofEpsilon_eq_ok.mp ht
  obtain rfl := Except.ok.inj h
  exact ⟨rfl, rfl, h0⟩

theorem exists_solve {s : Run (SteinerTree K S) K} {out : Outcome K} {t : Run (SteinerTree K S) K}
    (hissue : p.issue = none) (hbuild : Returns build { problem := p } () s)
    (hrun : Returns (Engine.runDependent policies) s out t) (ho : out.status = .optimal) :
    ∃ out', Returns (solve policies) { problem := p } out' t ∧ out'.status = .optimal := by
  refine ⟨{ out with objective := some t.problem.solutionCost }, ?_, ho⟩
  have hsolve : Returns (Engine.solveDependentProblem policies) { problem := p } out t := by
    simp only [Engine.solveDependentProblem, Engine.checkInput, Roundable.check, returns_bind,
      Action.returns_problem, returns_pure]
    refine ⟨(), { problem := p }, ⟨none, _, ⟨p, _, ⟨rfl, rfl⟩, hissue, rfl⟩, ?_⟩, (), s, hbuild,
      hrun⟩
    exact returns_pure.mpr ⟨rfl, rfl⟩
  refine returns_bind.mpr ⟨out, t, hsolve, ?_⟩
  rw [ho]
  simp only [returns_bind, Action.returns_problem, returns_pure]
  exact ⟨_, t, ⟨rfl, rfl⟩, rfl, rfl⟩

theorem halts_of_solve {s : Run (SteinerTree K S) K} {out : Outcome K}
    {t : Run (SteinerTree K S) K} (h : Returns (solve policies) { problem := p } out t)
    (hs : Returns build { problem := p } () s) {n : Nat} {u : Run (SteinerTree K S) K}
    (hu : Engine.Turns policies s (.built n) u) (v : Run (SteinerTree K S) K) :
    SolveRule.generating.apply u ≠ .error .unfinished v := by
  intro herr
  obtain ⟨out', w, hsolve, -⟩ := returns_bind.mp h
  obtain ⟨x, y, hcheck, hinit, hrun⟩ := Engine.returns_checked hsolve
  obtain ⟨_, _, hread, hcheck⟩ := returns_bind.mp hcheck
  obtain ⟨rfl, rfl⟩ := Action.returns_problem.mp hread
  obtain ⟨-, rfl⟩ := returns_pure.mp hcheck
  obtain ⟨-, rfl⟩ := hinit.unique hs
  obtain ⟨st, z, hz⟩ := hu.exists_settled hrun
  obtain ⟨st', z', hasked, -⟩ := returns_bind.mp hz
  rw [asked_eq] at hasked
  cases hasked.symm.trans herr

theorem exists_started {ε : K} {g : Graph K} {terminals : List Node} {steiner : Option (List Node)}
    {costName : String} {limit : Int} {entries : List Choice} {strategy : Strategy}
    {searchDice pickDice : S} (hg : g.Valid) (hcost : ∀ l ∈ g.links, 0 ≤ l.cost costName)
    (hmake : make ε g terminals steiner costName limit entries strategy searchDice pickDice = .ok p)
    (hissue : p.issue = none) (hlimit : 2 ≤ limit) (hε : ε < 1) :
    ∃ m₀, Ready p m₀ ∧ Ends build { problem := p } (fun _ s =>
      (Kept p m₀ s.problem ∧ Posed s.problem s.lp) ∧ s.problem.terminals = p.terminals ∧
        s.iterations = 0) fun _ => False := by
  obtain ⟨hsetlimit, htol, h0⟩ := settings_of_make hmake
  obtain ⟨rfl, rfl, -, hvertices, hn, hsink, hmetric, hzero, hcomponents⟩ := make_eq_ok hmake
  obtain ⟨m₀, hready, -⟩ := exists_ready hg hcost hvertices hn hissue
  have hkept : Kept p m₀ p :=
    ⟨⟨_, _, bought_nothing hsink hmetric hzero⟩, by simp [Offers, hcomponents]⟩
  have htwo : 2 ≤ p.limit := by omega
  refine ⟨m₀, hready, (build_ends (s := { problem := p }) hready hkept htwo (htol ▸ h0)
    (htol ▸ hε)).mono (fun _ s hs hgood => ?_) fun _ => id⟩
  exact ⟨⟨Kept.build (by exact hkept) hready hs, hgood.1⟩, hgood.2⟩

theorem length_terminals {ε : K} {g : Graph K} {terminals : List Node}
    {steiner : Option (List Node)} {costName : String} {limit : Int} {entries : List Choice}
    {strategy : Strategy} {searchDice pickDice : S}
    (hmake : make ε g terminals steiner costName limit entries strategy searchDice pickDice =
      .ok p) : p.terminals.length = terminals.toFinset.card := by
  obtain ⟨-, -, hterminals, -⟩ := make_eq_ok hmake
  have hnodup : p.terminals.Nodup := hterminals ▸ nodup_extend .nil
  rw [← List.toFinset_card_of_nodup hnodup, hterminals]
  congr 1
  ext v
  simp [mem_extend]

/-- A run on an input without fault ends with an answer after fewer rounds than there are terminals,
each of which finds a component to pick and merges a terminal away, if each of its calls of row
generation comes to an end. -/
theorem dependent_runs_finish {ε : K} {g : Graph K} {terminals : List Node}
    {steiner : Option (List Node)} {costName : String} {limit : Int} {entries : List Choice}
    {strategy : Strategy} {searchDice pickDice : S} (hg : g.Valid)
    (hcost : ∀ l ∈ g.links, 0 ≤ l.cost costName)
    (hmake : make ε g terminals steiner costName limit entries strategy searchDice pickDice = .ok p)
    (hissue : p.issue = none) (hlimit : 2 ≤ limit) (hε : ε < 1)
    (hsolver : (Backend.solver : Solver K).Settles)
    (hflow : (Backend.flow : FlowFinder Site K).Maximal) (hfair : Dice.Fair S K)
    (hpasses : terminals.toFinset.card < Backend.passes K)
    (hhalts : ∀ s, Returns build { problem := p } () s → ∀ n t,
      Engine.Turns policies s (.built n) t →
        ∀ u, SolveRule.generating.apply t ≠ .error .unfinished u) :
    (∃ (out : Outcome K) (t : Run (SteinerTree K S) K),
      Returns (solve policies) { problem := p } out t ∧ out.status = .optimal ∧
      t.iterations ≤ terminals.toFinset.card - 1 ∧
      t.problem.terminals.length = min 1 terminals.toFinset.card ∧
      t.problem.terminals ⊆ terminals ∧
      ∃ added : List Node, t.problem.sink.entries = entries ++ added.map .vertex ∧
        added.Nodup ∧ ∀ v ∈ added, v ∉ terminals) ∧
    ∀ s n t u, Returns build { problem := p } () s →
      Engine.Turns policies s (.solved n .optimal) t →
      Engine.Turn policies (.solved n .optimal, t) (.built (n + 1), u) →
      (∃ (j : Nat) (x : K), t.lp.columnValue j = .ok x ∧ 0 < x) ∧
        u.problem.terminals.length < t.problem.terminals.length := by
  obtain ⟨m₀, hready, hbuilds⟩ := exists_started hg hcost hmake hissue hlimit hε
  have hbase {s : Run (SteinerTree K S) K} (hs : Returns build { problem := p } () s) :=
    (ends_iff.mp hbuilds).1 _ _ hs
  have hlen := length_terminals hmake
  obtain ⟨rfl, rfl, hterminals, hvertices, hn, hsink, hmetric, hzero, hcomponents⟩ :=
    make_eq_ok hmake
  constructor
  · obtain ⟨_, s, hs, hb, hsame, hi⟩ := hbuilds.exists_returns
    have hadvances := policies_advances hfair hready hsolver hflow (hhalts s hs)
    obtain ⟨first, t, hrun, ho, hle⟩ := hadvances.exists_run hb (by rw [hsame, hlen]; exact hpasses)
    obtain ⟨out, h, ho⟩ := exists_solve hissue hs hrun ho
    obtain ⟨-, -, hlast⟩ := of_solve h ho
    obtain ⟨⟨⟨added, pairs, hbought⟩, -⟩, hone⟩ := hlast m₀ hready
      ⟨⟨_, _, bought_nothing hsink hmetric hzero⟩, by simp [Offers, hcomponents]⟩
    -- a terminal that was merged away is joined to one that is left
    have hleft : 0 < p.terminals.length → 0 < t.problem.terminals.length := by
      intro hpos
      obtain ⟨v, hv⟩ := List.exists_mem_of_length_pos hpos
      obtain ⟨w, hw, -⟩ := hbought.reach v (List.mem_append_left _ hv)
      exact List.length_pos_of_mem hw
    have hmost := hbought.terminals.length_le
    rw [hsame, hi] at hle
    refine ⟨out, t, h, ho, by omega, by omega, fun v hv => ?_, added, ?_, hbought.nodup,
      fun v hv hvt => ?_⟩
    · have hv := hbought.terminals.subset hv
      rw [hterminals, mem_extend] at hv
      simpa using hv
    · rw [hbought.sink, hsink]
      rfl
    · have hvt : v ∈ p.terminals := by
        rw [hterminals, mem_extend]
        exact .inr hvt
      rw [hvertices] at hn
      exact (List.nodup_append.mp hn).2.2 v hvt v (hbought.inside hv) rfl
  · intro s n t u hs ht hround
    have hb := (hbase hs).1
    have hadvances := policies_advances hfair hready hsolver hflow (hhalts s hs)
    refine ⟨?_, hadvances.lt_of_round hb ht hround⟩
    have hpoint : Point t.problem t.lp := (hadvances.held hb ht).2.2
    obtain ⟨j, x, -, hx, habove⟩ := by
      cases hround with
      | round hstop hv => exact hpoint.exists_above hflow.sound (two_le_of_stop hstop)
    exact ⟨j, x, hx, hpoint.nonneg.trans_lt habove⟩

end Runs

@[reducible] noncomputable def forkBackend : Backend ℚ where
  solver := .finding [[0, 0, 0, 0, 0, 0], [1, 0, 0, 0, 0, 0], [1, 0, 1, 0, 0, 0], [0, 0], [1, 0]]
  flow := .largest Augment.finder
  passes := 6

theorem broom_finishes :
    let _ := forkBackend
    let _ : Dice Unit ℚ := Dice.firstPositive
    ∃ (p : SteinerTree ℚ Unit) (out : Outcome ℚ) (t : Run (SteinerTree ℚ Unit) ℚ),
      make (1 / 10) broom [.number 1, .number 2, .number 4] none "cost" 2 [] .first () () = .ok p ∧
      Returns (solve policies) { problem := p } out t ∧ out.status = .optimal ∧
      t.iterations ≤ 2 ∧ t.problem.terminals.length = 1 := by
  let _ := forkBackend
  let _ : Dice Unit ℚ := Dice.firstPositive
  obtain ⟨p, hp, hrun⟩ := exists_ok
    (make (1 / 10) broom [.number 1, .number 2, .number 4] none "cost" 2 [] .first () ())
    (fun p => decide (p.issue = none) &&
      yields (solve policies) { problem := p } fun _ => true) (by decide +kernel)
  obtain ⟨hissue, hrun⟩ := Bool.and_eq_true_iff.mp hrun
  obtain ⟨_, _, hends, -⟩ := exists_returns hrun
  obtain ⟨⟨out, t, h, ho, hrounds, hone, -⟩, -⟩ :=
    dependent_runs_finish broom_valid (by decide +kernel) hp (of_decide_eq_true hissue) (by decide)
      (by norm_num) (Solver.finding_settles _) (FlowFinder.largest_maximal _)
      Dice.firstPositive_fair (by decide) fun s hs n t ht u => halts_of_solve hends hs ht u
  exact ⟨p, out, t, hp, h, ho, hrounds, hone⟩

end SteinerTree

end LPRounding
