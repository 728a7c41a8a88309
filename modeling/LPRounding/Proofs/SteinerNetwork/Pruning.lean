import LPRounding.Proofs.SteinerNetwork.Answer

/-!
Requirements lose nothing when they are pruned. Whatever carries enough across every cut of a pair
of the forest carries enough across every cut of an entry, as each cut of an entry is one of a pair
that demands as much.
-/

namespace LPRounding

set_option linter.unusedSectionVars false

variable {K : Type} [Field K] [LinearOrder K] [IsStrictOrderedRing K] [FloorRing K]

def cutCapacity (sites : Finset Node) (capacity : Node → Node → K) (near : Finset Node) : K :=
  ∑ a ∈ near, ∑ b ∈ sites \ near, capacity a b

/-- The least that leads out of a set with `u` and without `v`. -/
def minCut (sites : Finset Node) (capacity : Node → Node → K) (u v : Node) : WithTop K :=
  (sites.powerset.filter fun near => u ∈ near ∧ v ∉ near).inf fun near =>
    ((cutCapacity sites capacity near : K) : WithTop K)

section Cuts

variable {sites near : Finset Node} {capacity : Node → Node → K} {u v : Node} {a : K}

theorem le_minCut_iff : (a : WithTop K) ≤ minCut sites capacity u v ↔
    ∀ near ⊆ sites, u ∈ near → v ∉ near → a ≤ cutCapacity sites capacity near := by
  simp only [minCut, Finset.le_inf_iff, Finset.mem_filter, Finset.mem_powerset,
    WithTop.coe_le_coe]
  exact ⟨fun h near hs hu hv => h near ⟨hs, hu, hv⟩, fun h near hn => h near hn.1 hn.2.1 hn.2.2⟩

theorem cutCapacity_nonneg (h : ∀ a b, 0 ≤ capacity a b) (near : Finset Node) :
    0 ≤ cutCapacity sites capacity near :=
  Finset.sum_nonneg fun a _ => Finset.sum_nonneg fun b _ => h a b

theorem cutCapacity_sdiff (h : ∀ a b, capacity a b = capacity b a) (hs : near ⊆ sites) :
    cutCapacity sites capacity (sites \ near) = cutCapacity sites capacity near := by
  rw [cutCapacity, cutCapacity, Finset.sdiff_sdiff_eq_self hs, Finset.sum_comm]
  exact Finset.sum_congr rfl fun a _ => Finset.sum_congr rfl fun b _ => h b a

theorem le_minCut_iff_parts (h : ∀ a b, capacity a b = capacity b a)
    (hu : u ∈ sites) : (a : WithTop K) ≤ minCut sites capacity u v ↔
      ∀ near ⊆ sites, decide (u ∈ near) ≠ decide (v ∈ near) →
        a ≤ cutCapacity sites capacity near := by
  rw [le_minCut_iff]
  constructor
  · intro hcut near hs hne
    by_cases hun : u ∈ near
    · exact hcut near hs hun (by simpa [hun] using hne)
    · have hvn : v ∈ near := by simpa [hun] using hne
      rw [← cutCapacity_sdiff h hs]
      exact hcut _ Finset.sdiff_subset (Finset.mem_sdiff.mpr ⟨hu, hun⟩)
        fun hm => (Finset.mem_sdiff.mp hm).2 hvn
  · intro hcut near hs hun hvn
    exact hcut near hs (by simp [hun, hvn])

end Cuts

namespace Requirements

variable {r : Requirements K} {span : List (Weighted Node K) → List (Weighted Node K)}
  {vertices : List Node} {pairs : List (Node × Node)} {sites : Finset Node}
  {capacity : Node → Node → K} {ε : K}

section Meeting

variable (hn : (r.entries.map Prod.fst).Nodup)
  (hspan : Weighted.MaximumForest [] (r.weighted vertices) (span (r.weighted vertices)))
  (hp : r.pruneBy span vertices = .ok pairs)
  (hsites : ∀ e ∈ r.entries, e.1.1 ∈ sites ∧ e.1.2 ∈ sites)
  (hsymm : ∀ a b, capacity a b = capacity b a)

include hsites in
theorem mem_sites_of_need {u v : Node} (h : 0 < r.need u v) : u ∈ sites ∧ v ∈ sites := by
  obtain ⟨e, he, -, heq | heq⟩ := exists_entry h
  · simpa [heq] using hsites e he
  · simpa [heq, and_comm] using hsites e he

include hn hspan hp hsites hsymm

/-- Where all pairs of the forest are met, all pairs are. -/
theorem met_of_pairs (hcap : ∀ a b, 0 ≤ capacity a b) (hε : 0 ≤ ε)
    (hmet : ∀ p ∈ pairs, ((r.need p.1 p.2 - ε : K) : WithTop K) ≤
      minCut sites capacity p.1 p.2) (u v : Node) :
    ((max (r.need u v) 0 - ε : K) : WithTop K) ≤ minCut sites capacity u v := by
  refine le_minCut_iff.mpr fun near hs hu hv => ?_
  by_cases hpos : 0 < r.need u v
  · let side (w : Node) : Bool := decide (w ∈ near)
    have hside : side u ≠ side v := by simp [side, hu, hv]
    obtain ⟨p, hm, hle, hcross⟩ := exists_pair_of_need hn hspan hp hpos hside
    have h₁ := (mem_sites_of_need hsites (of_mem_pruneBy hn hspan hp hm).2).1
    have hcut := (le_minCut_iff_parts hsymm h₁).mp (hmet p hm) near hs hcross
    rw [max_eq_left hpos.le]
    linarith
  · have hnonneg : 0 ≤ cutCapacity sites capacity near := cutCapacity_nonneg hcap near
    rw [max_eq_right (not_lt.mp hpos)]
    linarith

theorem met_of_entries (hmet : ∀ e ∈ r.entries, e.1.1 ≠ e.1.2 →
      ((max (r.need e.1.1 e.1.2) 0 - ε : K) : WithTop K) ≤ minCut sites capacity e.1.1 e.1.2)
    {p : Node × Node} (hm : p ∈ pairs) :
    ((r.need p.1 p.2 - ε : K) : WithTop K) ≤ minCut sites capacity p.1 p.2 := by
  obtain ⟨hne, hpos⟩ := of_mem_pruneBy hn hspan hp hm
  obtain ⟨h₁, h₂⟩ := mem_sites_of_need hsites hpos
  rw [le_minCut_iff_parts hsymm h₁]
  intro near hs hcross
  obtain ⟨e, he, -, heq | heq⟩ := exists_entry hpos
  · have hcut := hmet e he
    rw [heq, max_eq_left hpos.le, le_minCut_iff_parts hsymm h₁] at hcut
    exact hcut hne near hs hcross
  · have hcut := hmet e he
    rw [heq, r.need_comm, max_eq_left hpos.le, le_minCut_iff_parts hsymm h₂] at hcut
    exact hcut hne.symm near hs hcross.symm

end Meeting

end Requirements

namespace SteinerNetwork

variable {S : Type}

theorem check_strange [Backend K] (s : Run (SteinerNetwork K S) K) {pair : Node × Node}
    (hm : pair ∈ s.problem.pairs)
    (hout : pair.1 ∉ s.problem.graph.vertices ∨ pair.2 ∉ s.problem.graph.vertices) :
    ∃ a b, (a, b) ∈ s.problem.pairs ∧
      (a ∉ s.problem.graph.vertices ∨ b ∉ s.problem.graph.vertices) ∧
      Returns check s (some (.strangePair a b)) s := by
  let strange (pair : Node × Node) : Bool :=
    pair.1 ∉ s.problem.graph.vertices || pair.2 ∉ s.problem.graph.vertices
  have hsome : (s.problem.pairs.find? strange).isSome :=
    List.find?_isSome.mpr ⟨pair, hm, by simpa [strange] using hout⟩
  obtain ⟨⟨a, b⟩, hf⟩ := Option.isSome_iff_exists.mp hsome
  refine ⟨a, b, List.mem_of_find?_eq_some hf, by simpa [strange] using List.find?_some hf, ?_⟩
  simp only [check, returns_bind, Action.returns_problem]
  refine ⟨_, s, ⟨rfl, rfl⟩, ?_⟩
  split
  · next u v hfind =>
    obtain ⟨rfl, rfl⟩ := Prod.mk.inj (Option.some.inj (hfind.symm.trans hf))
    exact returns_pure.mpr ⟨rfl, rfl⟩
  · next hnone => cases hnone.symm.trans hf

/-- Whatever maximum spanning forest is taken, pruning succeeds. Enough is carried across all cuts
of the pairs that are left if and only if enough is carried across all cuts of all entries, however
much less than required counts as enough. Each vertex that requires anything of another is an end
of a pair, so the check of an instance reports that it is missing. -/
theorem pruning_loses_nothing [Backend K]
    {span : List (Weighted Node K) → List (Weighted Node K)}
    (hspan : ∀ es, Weighted.MaximumForest [] es (span es)) (required : List ((Node × Node) × K))
    (vertices : List Node) :
    let r := Requirements.ofList required
    ∃ pairs, r.pruneBy span vertices = .ok pairs ∧
      (∀ (sites : Finset Node) (capacity : Node → Node → K) (ε : K),
        (∀ e ∈ r.entries, e.1.1 ∈ sites ∧ e.1.2 ∈ sites) →
        (∀ a b, capacity a b = capacity b a) → (∀ a b, 0 ≤ capacity a b) → 0 ≤ ε →
        ((∀ pair ∈ pairs, ((r.need pair.1 pair.2 - ε : K) : WithTop K) ≤
            minCut sites capacity pair.1 pair.2) ↔
          ∀ e ∈ r.entries, e.1.1 ≠ e.1.2 →
            ((max (r.need e.1.1 e.1.2) 0 - ε : K) : WithTop K) ≤
              minCut sites capacity e.1.1 e.1.2)) ∧
      ∀ u v, u ≠ v → 0 < r.need u v →
        (∃ pair ∈ pairs, pair.1 = u ∨ pair.2 = u) ∧
        ∀ s : Run (SteinerNetwork K S) K, s.problem.pairs = pairs →
          u ∉ s.problem.graph.vertices →
          ∃ a b, (a, b) ∈ pairs ∧
            (a ∉ s.problem.graph.vertices ∨ b ∉ s.problem.graph.vertices) ∧
            Returns check s (some (.strangePair a b)) s := by
  intro r
  have hn := Requirements.nodup_ofList required
  obtain ⟨pairs, hp⟩ := r.exists_pruneBy span vertices
  have hforest := hspan (r.weighted vertices)
  refine ⟨pairs, hp, fun sites capacity ε hsites hsymm hcap hε => ⟨fun hmet e _ _ => ?_, ?_⟩,
    fun u v huv hpos => ?_⟩
  · exact Requirements.met_of_pairs hn hforest hp hsites hsymm hcap hε hmet _ _
  · intro hmet pair hm
    exact Requirements.met_of_entries hn hforest hp hsites hsymm hmet hm
  · obtain ⟨pair, hm, hend⟩ := Requirements.exists_end hn hforest hp huv hpos
    refine ⟨⟨pair, hm, hend⟩, fun s hs hu => ?_⟩
    subst hs
    refine check_strange s hm ?_
    rcases hend with rfl | rfl
    · exact .inl hu
    · exact .inr hu

def mixedNeeds : List ((Node × Node) × ℚ) :=
  [((.number 0, .number 1), 1), ((.number 1, .number 0), 3), ((.number 2, .number 2), 4),
    ((.number 1, .number 2), 2), ((.number 2, .number 0), -1), ((.number 0, .number 2), 1)]

theorem pruning_loses_nothing_mixed :
    let _ := cornerBackend
    let r := Requirements.ofList mixedNeeds
    let sites : Finset Node := {.number 0, .number 1, .number 2}
    let capacity : Node → Node → ℚ := fun _ _ => 2
    ∃ pairs, r.prune [.number 0, .number 1] = .ok pairs ∧
      ((∀ pair ∈ pairs, ((r.need pair.1 pair.2 - 1 / 2 : ℚ) : WithTop ℚ) ≤
          minCut sites capacity pair.1 pair.2) ↔
        ∀ e ∈ r.entries, e.1.1 ≠ e.1.2 → ((max (r.need e.1.1 e.1.2) 0 - 1 / 2 : ℚ) : WithTop ℚ) ≤
          minCut sites capacity e.1.1 e.1.2) ∧
      (∃ pair ∈ pairs, pair.1 = .number 2 ∨ pair.2 = .number 2) ∧
      ∀ s : Run (SteinerNetwork ℚ Unit) ℚ, s.problem.pairs = pairs →
        s.problem.graph.vertices = [.number 0, .number 1] →
        ∃ a b, (a, b) ∈ pairs ∧
          (a ∉ s.problem.graph.vertices ∨ b ∉ s.problem.graph.vertices) ∧
          Returns check s (some (.strangePair a b)) s := by
  intro _ r sites capacity
  obtain ⟨pairs, hp, hmet, hends⟩ := pruning_loses_nothing (S := Unit)
    Weighted.maximum_maximumForest mixedNeeds [.number 0, .number 1]
  have hneed : 0 < r.need (.number 2) (.number 1) := by decide +kernel
  obtain ⟨hend, hcheck⟩ := hends (.number 2) (.number 1) (by decide) hneed
  refine ⟨pairs, (r.prune_eq _).trans hp, ?_, hend, fun s hs hv => hcheck s hs ?_⟩
  · exact hmet sites capacity (1 / 2) (by decide +kernel) (fun _ _ => rfl) (fun _ _ => by norm_num)
      (by norm_num)
  · rw [hv]
    decide

theorem prune_loop : (Requirements.ofList [((.number 5, .number 5), (1 : ℚ))]).prune
    [.number 0, .number 1] = .ok [] :=
  (Requirements.prune_of_sorted (by decide +kernel)).trans rfl

/-- A loop has no cut: it is dropped, and no one misses its vertex. -/
theorem missing_loop_passes :
    let _ := cornerBackend
    let r : Requirements ℚ := .ofList [((.number 5, .number 5), 1)]
    let g : Graph ℚ :=
      { vertices := [.number 0, .number 1],
        links := [{ tail := .number 0, head := .number 1, key := 0, attrs := [] }] }
    r.value? (.number 5) (.number 5) = some 1 ∧
      ∃ p : SteinerNetwork ℚ Unit, make 0 g r "cost" [] .first () = .ok p ∧
        (¬ ∃ pair ∈ p.pairs, pair.1 = .number 5 ∨ pair.2 = .number 5) ∧
        .number 5 ∉ p.graph.vertices ∧ Returns check { problem := p } none { problem := p } := by
  intro _ r g
  obtain ⟨p, hp, -⟩ := exists_ok (make 0 g r "cost" [] .first ()) (fun _ => true) (by
    rw [make, prune_loop]
    decide +kernel)
  obtain ⟨hgraph, -, -, hprune, -⟩ := make_eq_ok hp
  have hpairs : p.pairs = [] := Except.ok.inj (hprune.symm.trans prune_loop)
  refine ⟨by decide +kernel, p, hp, by simp [hpairs], by rw [hgraph]; decide, ?_⟩
  simp only [check, returns_bind, Action.returns_problem]
  refine ⟨p, _, ⟨rfl, rfl⟩, ?_⟩
  rw [hpairs]
  exact returns_bind.mpr ⟨none, _, returns_lift.mpr ⟨rfl, rfl⟩, returns_pure.mpr ⟨rfl, rfl⟩⟩

end SteinerNetwork

end LPRounding
