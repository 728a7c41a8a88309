import LPRounding.Proofs.Flow.Edges
import LPRounding.Problem.BoundedTree

/-!
The auxiliary network of a point. A cut between the source and the sink is as cheap as the set on
its near side holds much of the point for its size, so a least cut finds a set that holds most.
-/

namespace LPRounding.BoundedTree

set_option linter.unusedSectionVars false

variable {K S : Type} [Field K] [LinearOrder K] [IsStrictOrderedRing K] [FloorRing K]
  {p : BoundedTree K S} {entries : List (Edge K × K)} {v w : Node}

theorem load_eq (entries : List (Edge K × K)) (v : Node) : load entries v =
    (entries.map fun e => (if e.1.name.u = v then e.2 else 0) +
      if e.1.name.v = v then e.2 else 0).sum := by
  have hfold (total : K) : entries.foldl
      (fun total e =>
        let total := if e.1.name.u = v then total + e.2 else total
        if e.1.name.v = v then total + e.2 else total) total =
      total + (entries.map fun e => (if e.1.name.u = v then e.2 else 0) +
        if e.1.name.v = v then e.2 else 0).sum := by
    induction entries generalizing total with
    | nil => simp
    | cons e rest ih =>
      rw [List.foldl_cons, ih, List.map_cons, List.sum_cons]
      by_cases hu : e.1.name.u = v <;> by_cases hv : e.1.name.v = v <;> simp [hu, hv] <;> ring
  exact (hfold 0).trans (zero_add _)

def heaviest (p : BoundedTree K S) (entries : List (Edge K × K)) : K :=
  Scalar.largest 0 (p.graph.vertices.map (load entries))

theorem load_le (hv : v ∈ p.graph.vertices) : load entries v ≤ p.heaviest entries :=
  Scalar.le_largest (List.mem_map_of_mem hv) 0

theorem load_nonneg (h : ∀ e ∈ entries, 0 ≤ e.2) (v : Node) : 0 ≤ load entries v := by
  rw [load_eq]
  refine List.sum_nonneg fun x hx => ?_
  obtain ⟨e, he, rfl⟩ := List.mem_map.mp hx
  have := h e he
  split <;> split <;> linarith

theorem link?_foldl (c : K) (d : Node → K) (vs : List Node) {n : Network Site K} (h : n.Valid) :
    let n' := vs.foldl (fun n v => (n.setArc .source (.vertex v) (some c)).setArc (.vertex v) .sink
      (some (d v))) n
    n'.Valid ∧ (∀ s, s ∈ n'.vertices ↔ s ∈ n.vertices ∨
      ∃ v ∈ vs, s = .source ∨ s = .vertex v ∨ s = .sink) ∧
    (∀ v ∈ vs, n'.link? .source (.vertex v) = some (some c)) ∧
    (∀ v ∈ vs, n'.link? (.vertex v) .sink = some (some (d v))) ∧
    ∀ s t, (∀ v ∈ vs, ¬ (s = .source ∧ t = .vertex v) ∧ ¬ (s = .vertex v ∧ t = .sink)) →
      n'.link? s t = n.link? s t := by
  induction vs generalizing n with
  | nil => exact ⟨h, by simp, by simp, by simp, fun _ _ _ => rfl⟩
  | cons v vs ih =>
    have h₁ : (n.setArc .source (.vertex v) (some c)).Valid := h.update
    obtain ⟨hvalid, hmem, henter, hleave, hrest⟩ := ih (n := (n.setArc .source (.vertex v)
      (some c)).setArc (.vertex v) .sink (some (d v))) h₁.update
    have hlink (s t : Site) : ((n.setArc .source (.vertex v) (some c)).setArc (.vertex v) .sink
        (some (d v))).link? s t = if s = .vertex v ∧ t = .sink then some (some (d v)) else
          if s = .source ∧ t = .vertex v then some (some c) else n.link? s t := by
      rw [h₁.link?_setArc, h.link?_setArc]
    refine ⟨hvalid, fun s => ?_, fun w hw => ?_, fun w hw => ?_, fun s t hst => ?_⟩
    · refine (hmem s).trans ?_
      unfold Network.setArc
      rw [Network.mem_update, Network.mem_update]
      simp only [List.mem_cons, exists_eq_or_imp, or_assoc, or_self_left]
    · by_cases hwv : w ∈ vs
      · exact henter w hwv
      · obtain rfl : w = v := (List.mem_cons.mp hw).resolve_right hwv
        have hno : ∀ x ∈ vs, ¬ (Site.source = .source ∧ Site.vertex w = .vertex x) ∧
            ¬ (Site.source = .vertex x ∧ Site.vertex w = .sink) := by
          intro x hx
          refine ⟨?_, by simp⟩
          rintro ⟨-, heq⟩
          exact hwv (Site.vertex.inj heq ▸ hx)
        refine (hrest _ _ hno).trans ?_
        rw [hlink]
        simp
    · by_cases hwv : w ∈ vs
      · exact hleave w hwv
      · obtain rfl : w = v := (List.mem_cons.mp hw).resolve_right hwv
        have hno : ∀ x ∈ vs, ¬ (Site.vertex w = .source ∧ Site.sink = .vertex x) ∧
            ¬ (Site.vertex w = .vertex x ∧ Site.sink = .sink) := by
          intro x hx
          refine ⟨by simp, ?_⟩
          rintro ⟨heq, -⟩
          exact hwv (Site.vertex.inj heq ▸ hx)
        refine (hrest _ _ hno).trans ?_
        rw [hlink]
        simp
    · obtain ⟨h₁, h₂⟩ := hst v List.mem_cons_self
      refine (hrest s t fun x hx => hst x (List.mem_cons_of_mem _ hx)).trans ?_
      rw [hlink, if_neg h₂, if_neg h₁]

/-- Sites that neither an arc of the source nor one of the sink joins. -/
def Inner (p : BoundedTree K S) (s t : Site) : Prop :=
  ∀ w ∈ p.graph.vertices, ¬ (s = .source ∧ t = .vertex w) ∧ ¬ (s = .vertex w ∧ t = .sink)

/-- The auxiliary network of the entries, with the arc from the source to `v` unbounded. -/
structure Forced (p : BoundedTree K S) (entries : List (Edge K × K)) (v : Node)
    (n : Network Site K) : Prop where
  valid : n.Valid
  mem : ∀ s, s ∈ n.vertices ↔ s = .source ∨ s = .sink ∨ ∃ w ∈ p.graph.vertices, s = .vertex w
  wide : n.link? .source (.vertex v) = some none
  enter : ∀ w ∈ p.graph.vertices, w ≠ v →
    n.link? .source (.vertex w) = some (some (p.heaviest entries))
  leave : ∀ w ∈ p.graph.vertices,
    n.link? (.vertex w) .sink = some (some (p.heaviest entries + 2 - load entries w))
  inner : ∀ s t, p.Inner s t → (n.link? s t = none ∧ Network.capacity entries s t = 0) ∨
    n.link? s t = some (some (Network.capacity entries s t))

theorem forced_release (hends : ∀ e ∈ entries,
    e.1.name.u ∈ p.graph.vertices ∧ e.1.name.v ∈ p.graph.vertices) (hv : v ∈ p.graph.vertices) :
    p.Forced entries v ((p.auxiliary entries).release .source (.vertex v)) := by
  obtain ⟨hs, hsm⟩ := Network.spread_graph p.graph.vertices entries
  obtain ⟨hvalid, hmem, henter, hleave, hrest⟩ := link?_foldl (p.heaviest entries)
    (fun w => p.heaviest entries + 2 - load entries w) p.graph.vertices hs.valid
  have hscalar : (Scalar.ofInt 2 : K) = 2 := by simp
  have haux : p.auxiliary entries = p.graph.vertices.foldl
      (fun n w => (n.setArc .source (.vertex w) (some (p.heaviest entries))).setArc (.vertex w) .sink
        (some (p.heaviest entries + 2 - load entries w)))
      (entries.foldl (fun n e => n.addEdge (.vertex e.1.name.u) (.vertex e.1.name.v) e.2)
        (.ofVertices (p.graph.vertices.map .vertex))) := by
    simp only [← hscalar]
    rfl
  rw [← haux] at hvalid hmem henter hleave hrest
  refine ⟨hvalid.update, fun s => ?_, ?_, fun w hw hne => ?_, fun w hw => ?_, fun s t hst => ?_⟩
  · rw [Network.release, Network.mem_update, hmem, hsm]
    constructor
    · rintro ((((⟨w, hw, rfl⟩ | ⟨e, he, rfl | rfl⟩) | ⟨w, hw, rfl | rfl | rfl⟩)) | rfl | rfl)
      · exact .inr (.inr ⟨w, hw, rfl⟩)
      · exact .inr (.inr ⟨_, (hends e he).1, rfl⟩)
      · exact .inr (.inr ⟨_, (hends e he).2, rfl⟩)
      · exact .inl rfl
      · exact .inr (.inr ⟨w, hw, rfl⟩)
      · exact .inr (.inl rfl)
      · exact .inl rfl
      · exact .inr (.inr ⟨v, hv, rfl⟩)
    · rintro (rfl | rfl | ⟨w, hw, rfl⟩)
      · exact .inr (.inl rfl)
      · exact .inl (.inr ⟨v, hv, .inr (.inr rfl)⟩)
      · exact .inl (.inl (.inl ⟨w, hw, rfl⟩))
  · rw [hvalid.link?_release, if_pos ⟨rfl, rfl⟩]
  · rw [hvalid.link?_release, if_neg (by simpa using hne), henter w hw]
  · rw [hvalid.link?_release, if_neg (by simp), hleave w hw]
  · rw [hvalid.link?_release, if_neg (hst v hv).1, hrest s t hst]
    exact hs.link s t

namespace Forced

variable {n : Network Site K}

theorem room_wide (h : p.Forced entries v n) : n.room .source (.vertex v) = n.plenty := by
  rw [Network.room, if_neg (by simp), h.wide]
  rfl

theorem room_enter (h : p.Forced entries v n) (h0 : 0 ≤ p.heaviest entries)
    (hw : w ∈ p.graph.vertices) (hne : w ≠ v) :
    n.room .source (.vertex w) = p.heaviest entries := by
  rw [Network.room, if_neg (by simp), h.enter w hw hne]
  exact max_eq_left h0

theorem room_leave (h : p.Forced entries v n) (hw : w ∈ p.graph.vertices) :
    n.room (.vertex w) .sink = p.heaviest entries + 2 - load entries w := by
  rw [Network.room, if_neg (by simp), h.leave w hw]
  refine max_eq_left ?_
  have : load entries w ≤ p.heaviest entries := load_le hw
  linarith

theorem room_inner (h : p.Forced entries v n) (hpos : ∀ e ∈ entries, 0 ≤ e.2) {s t : Site}
    (hst : s ≠ t) (hin : p.Inner s t) : n.room s t = Network.capacity entries s t := by
  rw [Network.room, if_neg hst]
  rcases h.inner s t hin with ⟨hl, h0⟩ | hl
  · rw [hl, h0]
    rfl
  · rw [hl]
    exact max_eq_left (Network.capacity_nonneg hpos s t)

end Forced

/-- What the entries carry inside a set. -/
def weight (entries : List (Edge K × K)) (set : Finset Node) : K :=
  (entries.map fun e => if e.1.name.u ∈ set ∧ e.1.name.v ∈ set then e.2 else 0).sum

def side (set : Finset Node) : Finset Site := insert .source (set.image .vertex)

theorem vertex_mem_side {set : Finset Node} : .vertex v ∈ side set ↔ v ∈ set := by simp [side]

theorem sum_load (set : Finset Node) {all : Finset Node}
    (hends : ∀ e ∈ entries, e.1.name.u ∈ all ∧ e.1.name.v ∈ all) :
    ∑ w ∈ set, load entries w = 2 * weight entries set +
      ∑ a ∈ set, ∑ b ∈ all \ set, Network.capacity entries (.vertex a) (.vertex b) := by
  have hcross : ∑ a ∈ set, ∑ b ∈ all \ set, Network.capacity entries (.vertex a) (.vertex b) =
      (entries.map fun e => (if e.1.name.u ∈ set ∧ e.1.name.v ∈ all \ set then e.2 else 0) +
        if e.1.name.v ∈ set ∧ e.1.name.u ∈ all \ set then e.2 else 0).sum := by
    simp only [Network.capacity_vertex]
    exact Network.sum_between _ _
  rw [hcross, weight, ← List.sum_map_mul_left, ← List.sum_map_add]
  simp only [load_eq, ← sum_map_sum]
  congr 1
  refine List.map_congr_left fun e he => ?_
  obtain ⟨hu, hv⟩ := hends e he
  rw [Finset.sum_add_distrib, Finset.sum_ite_eq, Finset.sum_ite_eq]
  by_cases hus : e.1.name.u ∈ set <;> by_cases hvs : e.1.name.v ∈ set <;> simp [hus, hvs, hu, hv]
  ring

namespace Forced

variable {n : Network Site K} {set : Finset Node}

theorem sdiff_side (h : p.Forced entries v n) :
    n.vertices.toFinset \ side set =
      insert .sink ((p.graph.vertices.toFinset \ set).image .vertex) := by
  ext s
  rw [Finset.mem_sdiff, List.mem_toFinset, h.mem]
  cases s <;> simp [side]

theorem cutRoom_eq (h : p.Forced entries v n) (hpos : ∀ e ∈ entries, 0 ≤ e.2)
    (hends : ∀ e ∈ entries, e.1.name.u ∈ p.graph.vertices ∧ e.1.name.v ∈ p.graph.vertices)
    (hset : set ⊆ p.graph.vertices.toFinset) :
    n.cutRoom (side set) =
      ∑ w ∈ p.graph.vertices.toFinset \ set, n.room .source (.vertex w) +
        (set.card * (p.heaviest entries + 2) - 2 * weight entries set) := by
  have hinj (xs : Finset Node) : Set.InjOn Site.vertex (xs : Set Node) :=
    fun _ _ _ _ h => Site.vertex.inj h
  have hmem {w : Node} (hw : w ∈ set) : w ∈ p.graph.vertices := List.mem_toFinset.mp (hset hw)
  rw [Network.cutRoom, h.sdiff_side]
  rw [side, Finset.sum_insert (by simp), Finset.sum_image (hinj _), Finset.sum_insert (by simp),
    Finset.sum_image (hinj _)]
  have hdirect : n.room .source .sink = 0 := by
    rw [h.room_inner hpos (by simp) (by simp [Inner])]
    exact Network.capacity_of_not_vertex (.inl (by simp))
  have hrow {a : Node} (ha : a ∈ set) :
      ∑ t ∈ insert .sink ((p.graph.vertices.toFinset \ set).image .vertex), n.room (.vertex a) t =
        (p.heaviest entries + 2 - load entries a) + ∑ b ∈ p.graph.vertices.toFinset \ set,
          Network.capacity entries (.vertex a) (.vertex b) := by
    rw [Finset.sum_insert (by simp), Finset.sum_image (hinj _), h.room_leave (hmem ha)]
    congr 1
    refine Finset.sum_congr rfl fun b hb => h.room_inner hpos ?_ (by simp [Inner])
    rintro heq
    exact (Finset.mem_sdiff.mp hb).2 (Site.vertex.inj heq ▸ ha)
  rw [hdirect, zero_add, Finset.sum_congr rfl fun a ha => hrow ha, Finset.sum_add_distrib,
    Finset.sum_sub_distrib, Finset.sum_const, nsmul_eq_mul]
  have hload := sum_load set fun e he =>
    ⟨List.mem_toFinset.mpr (hends e he).1, List.mem_toFinset.mpr (hends e he).2⟩
  linarith

theorem cutRoom_of_mem (h : p.Forced entries v n) (hpos : ∀ e ∈ entries, 0 ≤ e.2)
    (hends : ∀ e ∈ entries, e.1.name.u ∈ p.graph.vertices ∧ e.1.name.v ∈ p.graph.vertices)
    (h0 : 0 ≤ p.heaviest entries) (hset : set ⊆ p.graph.vertices.toFinset) (hv : v ∈ set) :
    n.cutRoom (side set) = p.graph.vertices.toFinset.card * p.heaviest entries +
      2 * (set.card - weight entries set) := by
  have hfar : ∑ w ∈ p.graph.vertices.toFinset \ set, n.room .source (.vertex w) =
      (p.graph.vertices.toFinset \ set).card * p.heaviest entries := by
    rw [← nsmul_eq_mul, ← Finset.sum_const]
    refine Finset.sum_congr rfl fun w hw => ?_
    obtain ⟨hw, hws⟩ := Finset.mem_sdiff.mp hw
    refine h.room_enter h0 (List.mem_toFinset.mp hw) ?_
    rintro rfl
    exact hws hv
  rw [h.cutRoom_eq hpos hends hset, hfar, Finset.cast_card_sdiff hset]
  ring

theorem side_subset (h : p.Forced entries v n) (hset : set ⊆ p.graph.vertices.toFinset) :
    side set ⊆ n.vertices.toFinset := by
  intro s hs
  rw [List.mem_toFinset, h.mem]
  rcases Finset.mem_insert.mp hs with rfl | hs
  · exact .inl rfl
  · obtain ⟨w, hw, rfl⟩ := Finset.mem_image.mp hs
    exact .inr (.inr ⟨w, List.mem_toFinset.mp (hset hw), rfl⟩)

theorem inner_or_arc (p : BoundedTree K S) (s t : Site) :
    p.Inner s t ∨ (∃ w ∈ p.graph.vertices, s = .source ∧ t = .vertex w) ∨
      ∃ w ∈ p.graph.vertices, s = .vertex w ∧ t = .sink := by
  by_contra hno
  push Not at hno
  obtain ⟨hin, hs, ht⟩ := hno
  exact hin fun w hw => ⟨fun h => hs w hw h.1 h.2, fun h => ht w hw h.1 h.2⟩

theorem bounded_sink (h : p.Forced entries v n) (s : Site) : n.link? s .sink ≠ some none := by
  rcases inner_or_arc p s .sink with hin | ⟨w, -, -, heq⟩ | ⟨w, hw, rfl, -⟩
  · rcases h.inner s .sink hin with ⟨hl, -⟩ | hl <;> simp [hl]
  · cases heq
  · simp [h.leave w hw]

theorem sum_whole (hone : ∀ e ∈ entries, e.2 = 1) (q r : Edge K × K → Prop) [DecidablePred q]
    [DecidablePred r] :
    (entries.map fun e => (if q e then e.2 else 0) + if r e then e.2 else 0).sum ∈
      (Int.castRingHom K).range := by
  refine list_sum_mem fun x hx => ?_
  obtain ⟨e, he, rfl⟩ := List.mem_map.mp hx
  have hterm {c : Prop} [Decidable c] : (if c then e.2 else 0) ∈ (Int.castRingHom K).range := by
    split
    · exact hone e he ▸ one_mem _
    · exact zero_mem _
  exact add_mem hterm hterm

theorem whole_room (h : p.Forced entries v n) (hone : ∀ e ∈ entries, e.2 = 1) :
    n.Whole n.room := by
  let whole := (Int.castRingHom K).range
  have hload (w : Node) : load entries w ∈ whole := by
    rw [load_eq]
    exact sum_whole hone _ _
  have hheavy : p.heaviest entries ∈ whole := by
    have hmem : p.heaviest entries ∈ 0 :: p.graph.vertices.map (load entries) :=
      Scalar.largest_mem 0 _
    rcases List.mem_cons.mp hmem with h0 | hm
    · exact h0 ▸ whole.zero_mem
    · obtain ⟨w, -, hw⟩ := List.mem_map.mp hm
      exact hw ▸ hload w
  have hcapacity (s t : Site) : Network.capacity entries s t ∈ whole := sum_whole hone _ _
  refine h.valid.whole_room fun s t c hc => ?_
  have hmem : c ∈ whole := by
    rcases inner_or_arc p s t with hin | ⟨w, hw, rfl, rfl⟩ | ⟨w, hw, rfl, rfl⟩
    · rcases h.inner s t hin with ⟨hl, -⟩ | hl
      · simp [hl] at hc
      · obtain rfl := Option.some.inj (Option.some.inj (hl.symm.trans hc))
        exact hcapacity s t
    · by_cases hwv : w = v
      · subst hwv
        simp [h.wide] at hc
      · obtain rfl := Option.some.inj (Option.some.inj ((h.enter w hw hwv).symm.trans hc))
        exact hheavy
    · obtain rfl := Option.some.inj (Option.some.inj ((h.leave w hw).symm.trans hc))
      exact whole.sub_mem (whole.add_mem hheavy (ofNat_mem whole 2)) (hload w)
  obtain ⟨k, hk⟩ := hmem
  exact ⟨k, hk.symm⟩

theorem eq_side (h : p.Forced entries v n) {near : Finset Site} (hsub : near ⊆ n.vertices.toFinset)
    (hs : .source ∈ near) (ht : .sink ∉ near) (hset : ∀ w, w ∈ set ↔ .vertex w ∈ near) :
    near = side set ∧ set ⊆ p.graph.vertices.toFinset := by
  constructor
  · ext s
    cases s with
    | vertex w => rw [← hset, vertex_mem_side]
    | source => simpa [side] using hs
    | sink => simpa [side] using ht
    | component c =>
      have hc : Site.component c ∉ near := by
        intro hc
        simpa [h.mem] using hsub hc
      simpa [side] using hc
  · intro w hw
    simpa [h.mem] using hsub ((hset w).mp hw)

theorem mem_of_least (h : p.Forced entries v n) (hv : v ∈ p.graph.vertices) {f : Flow K}
    (hf : n.Carries .source .sink f) {near : Finset Site} (hs : .source ∈ near)
    (heq : f.value = n.cutRoom near) : .vertex v ∈ near := by
  by_contra hno
  have hvn : .vertex v ∈ n.vertices := (h.mem _).mpr (.inr (.inr ⟨v, hv, rfl⟩))
  have hle := Network.room_le_cutRoom hs hvn hno
  have hlt := hf.value_lt_plenty h.valid ((h.mem _).mpr (.inl rfl)) ((h.mem _).mpr (.inr (.inl rfl)))
    (by simp) h.bounded_sink
  rw [h.room_wide, ← heq] at hle
  exact absurd hle (not_le.mpr hlt)

theorem room_source (h : p.Forced entries v n) (hpos : ∀ e ∈ entries, 0 ≤ e.2) (s : Site) :
    n.room s .source = 0 := by
  by_cases hs : s = .source
  · rw [Network.room, if_pos hs]
  · rw [h.room_inner hpos hs (by simp [Inner])]
    exact Network.capacity_of_not_vertex (.inr (by simp))

/-- More than a small tolerance is left of the unbounded arc, whatever it carries. -/
theorem mem_nodes (h : p.Forced entries v n) (hv : v ∈ p.graph.vertices)
    (hpos : ∀ e ∈ entries, 0 ≤ e.2) {find : FlowFinder Site K} (hfind : find.Sound) {tolerance : K}
    (h0 : 0 ≤ tolerance) (h1 : tolerance < 1) {cut : Cut Site K}
    (hcut : n.siteCut find tolerance .source .sink = .ok cut) : v ∈ cut.nodes := by
  obtain ⟨hasked, -, hreach⟩ := FlowFinder.of_siteCut h.valid hcut
  have hf := hfind _ _ _ hasked
  obtain ⟨-, hs, ht, hst, -⟩ := hasked
  have hvn : .vertex v ∈ n.vertices := (h.mem _).mpr (.inr (.inr ⟨v, hv, rfl⟩))
  have hsent := hf.sent_le_value hs (fun s _ => h.room_source hpos s) hvn
  have hvalue := hf.value_le_sum_room hs ht hst
  have hwide := h.valid.three_mul_sum_room_le h.bounded_sink
  have hleave : 2 ≤ ∑ s ∈ n.vertices.toFinset, n.room s .sink := by
    have hone : n.room (.vertex v) .sink ≤ ∑ s ∈ n.vertices.toFinset, n.room s .sink :=
      Finset.single_le_sum (f := fun s => n.room s .sink) (fun s _ => n.room_nonneg s .sink)
        (List.mem_toFinset.mpr hvn)
    rw [h.room_leave hv] at hone
    have : load entries v ≤ p.heaviest entries := load_le hv
    linarith
  rw [Cut.mem_nodes, hreach, hf.mem_reachable h.valid h0 hs]
  refine ⟨hvn, .single ⟨hs, hvn, ?_⟩⟩
  rw [h.room_wide]
  linarith

/-- A least cut finds a set with the vertex that holds most for its size. -/
theorem most_inside (h : p.Forced entries v n) (hv : v ∈ p.graph.vertices)
    (hends : ∀ e ∈ entries, e.1.name.u ∈ p.graph.vertices ∧ e.1.name.v ∈ p.graph.vertices)
    (hone : ∀ e ∈ entries, e.2 = 1) {find : FlowFinder Site K} (hfind : find.Exact) {tolerance : K}
    (h0 : 0 ≤ tolerance) (h1 : tolerance < 1) {cut : Cut Site K}
    (hcut : n.siteCut find tolerance .source .sink = .ok cut) :
    cut.nodes.Nodup ∧ ∀ set ⊆ p.graph.vertices.toFinset, v ∈ set →
      weight entries set - set.card ≤ weight entries cut.nodes.toFinset - cut.nodes.length := by
  have hpos : ∀ e ∈ entries, 0 ≤ e.2 := fun e he => (hone e he).symm ▸ zero_le_one
  have hheavy : 0 ≤ p.heaviest entries := (load_nonneg hpos v).trans (load_le hv)
  obtain ⟨hasked, -, hreach⟩ := FlowFinder.of_siteCut h.valid hcut
  have hwhole := h.whole_room hone
  obtain ⟨hmax, hsent⟩ := hfind _ _ _ hasked hwhole
  obtain ⟨-, hs, -, hst, -⟩ := hasked
  obtain ⟨hsub, hsn, htn, hval⟩ := hmax.value_eq_cutRoom h.valid hst hs hwhole hsent h0 h1
  rw [← hreach] at hsub hsn htn hval
  have hnodup : cut.nodes.Nodup := Cut.nodup_nodes (hreach ▸ h.valid.nodup_reachable _ _ _)
  have hmem (w : Node) : w ∈ cut.nodes.toFinset ↔ .vertex w ∈ cut.reachable.toFinset := by
    rw [List.mem_toFinset, List.mem_toFinset, Cut.mem_nodes]
  obtain ⟨hside, hset⟩ := h.eq_side hsub hsn htn hmem
  have hvn : v ∈ cut.nodes.toFinset := (hmem v).mpr (h.mem_of_least hv hmax.1 hsn hval)
  refine ⟨hnodup, fun set hsub hvs => ?_⟩
  have hle : n.cutRoom (side cut.nodes.toFinset) ≤ n.cutRoom (side set) := by
    rw [← hside, ← hval]
    exact hmax.1.value_le (h.side_subset hsub) (by simp [side]) (by simp [side])
  rw [h.cutRoom_of_mem hpos hends hheavy hset hvn, h.cutRoom_of_mem hpos hends hheavy hsub hvs,
    List.toFinset_card_of_nodup hnodup] at hle
  linarith

end Forced

end LPRounding.BoundedTree
