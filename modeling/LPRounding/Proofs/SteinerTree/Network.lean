import LPRounding.Proofs.Flow.Maximum
import LPRounding.Proofs.Run.Separation
import LPRounding.Problem.SteinerTree

/-!
The network of directed cuts. Unbounded arcs lead from the sources of a component to its place and
no further, so none of the flows that are asked for is unbounded.
-/

namespace LPRounding.SteinerTree

set_option linter.unusedSectionVars false

variable {K S : Type} [Field K] [LinearOrder K] [IsStrictOrderedRing K] [FloorRing K]

/-- A network all of whose arcs belong to the entries. -/
structure Routed (terminals : List Node) (entries : List (Nat × Component K × K))
    (n : Network Site K) : Prop where
  valid : n.Valid
  terminals : ∀ v ∈ terminals, .vertex v ∈ n.vertices
  wide : ∀ s t, n.link? s t = some none →
    ∃ e ∈ entries, ∃ v ∈ e.2.1.sources, s = .vertex v ∧ t = .component e.1
  narrow : ∀ s t c, n.link? s t = some (some c) →
    ∃ e ∈ entries, s = .component e.1 ∧ t = .vertex e.2.1.sink ∧ c = e.2.2

namespace Routed

variable {terminals : List Node} {entries : List (Nat × Component K × K)} {n : Network Site K}
  {j : Nat} {c : Component K} {x : K}

theorem mono (h : Routed terminals entries n) {more : List (Nat × Component K × K)}
    (hsub : entries ⊆ more) : Routed terminals more n where
  valid := h.valid
  terminals := h.terminals
  wide s t hst := by
    obtain ⟨e, he, hwide⟩ := h.wide s t hst
    exact ⟨e, hsub he, hwide⟩
  narrow s t c hst := by
    obtain ⟨e, he, hnarrow⟩ := h.narrow s t c hst
    exact ⟨e, hsub he, hnarrow⟩

theorem of_room_ne_zero (h : Routed terminals entries n) {s t : Site} (hroom : n.room s t ≠ 0) :
    (∃ e ∈ entries, ∃ v ∈ e.2.1.sources, s = .vertex v ∧ t = .component e.1) ∨
      ∃ e ∈ entries, s = .component e.1 ∧ t = .vertex e.2.1.sink := by
  unfold Network.room at hroom
  split at hroom
  · exact absurd rfl hroom
  cases hl : n.link? s t with
  | none => simp [hl] at hroom
  | some c =>
    cases c with
    | none => exact .inl (h.wide s t hl)
    | some c =>
      obtain ⟨e, he, hs, ht, -⟩ := h.narrow s t c hl
      exact .inr ⟨e, he, hs, ht⟩

theorem link?_enter (h : Routed terminals entries n) (v : Node) (j : Nat) (s t : Site) :
    (n.setArc (.vertex v) (.component j) none).link? s t =
      if s = .vertex v ∧ t = .component j then some none else n.link? s t := by
  rw [Network.setArc, h.valid.link?_update]
  split
  · cases hl : n.link? (.vertex v) (.component j) with
    | none => rfl
    | some old =>
      cases old with
      | none => rfl
      | some a =>
        obtain ⟨_, -, hs, -⟩ := h.narrow _ _ a hl
        cases hs
  · rfl

theorem enter (h : Routed terminals entries n) (he : (j, c, x) ∈ entries) {v : Node}
    (hv : v ∈ c.sources) :
    Routed terminals entries (n.setArc (.vertex v) (.component j) none) := by
  refine ⟨h.valid.update, fun w hw => ?_, fun s t hst => ?_, fun s t a hst => ?_⟩
  · exact Network.mem_update.mpr (.inl (h.terminals w hw))
  · rw [h.link?_enter] at hst
    split at hst
    · next heq => exact ⟨_, he, v, hv, heq⟩
    · exact h.wide s t hst
  · rw [h.link?_enter] at hst
    split at hst
    · cases hst
    · exact h.narrow s t a hst

theorem leave (h : Routed terminals entries n) (he : (j, c, x) ∈ entries) :
    Routed terminals entries (n.setArc (.component j) (.vertex c.sink) (some x)) := by
  refine ⟨h.valid.update, fun w hw => ?_, fun s t hst => ?_, fun s t a hst => ?_⟩
  · exact Network.mem_update.mpr (.inl (h.terminals w hw))
  · rw [h.valid.link?_setArc] at hst
    split at hst
    · cases hst
    · exact h.wide s t hst
  · rw [h.valid.link?_setArc] at hst
    split at hst
    · next heq =>
      obtain rfl := Option.some.inj (Option.some.inj hst)
      exact ⟨_, he, heq.1, heq.2, rfl⟩
    · exact h.narrow s t a hst

theorem enterAll (h : Routed terminals entries n) (he : (j, c, x) ∈ entries) {vs : List Node}
    (hvs : ∀ v ∈ vs, v ∈ c.sources) :
    Routed terminals entries (vs.foldl (fun n v => n.setArc (.vertex v) (.component j) none) n) ∧
      ∀ s t, (vs.foldl (fun n v => n.setArc (.vertex v) (.component j) none) n).link? s t =
        if s ∈ vs.map Site.vertex ∧ t = .component j then some none else n.link? s t := by
  induction vs generalizing n with
  | nil => exact ⟨h, by simp⟩
  | cons v vs ih =>
    obtain ⟨hr, hlink⟩ := ih (h.enter he (hvs v List.mem_cons_self))
      fun w hw => hvs w (List.mem_cons_of_mem _ hw)
    refine ⟨hr, fun s t => ?_⟩
    rw [List.foldl_cons, hlink, h.link?_enter, List.map_cons]
    by_cases ht : t = .component j <;> by_cases hs : s ∈ vs.map Site.vertex <;> simp [ht, hs]

end Routed

theorem network_append (p : SteinerTree K S) (entries : List (Nat × Component K × K))
    (e : Nat × Component K × K) : p.network (entries ++ [e]) =
      (e.2.1.sources.foldl (fun n v => n.setArc (.vertex v) (.component e.1) none)
        (p.network entries)).setArc (.component e.1) (.vertex e.2.1.sink) (some e.2.2) := by
  simp only [network, List.foldl_append, List.foldl_cons, List.foldl_nil]

theorem routed_network (p : SteinerTree K S) (entries : List (Nat × Component K × K)) :
    Routed p.terminals entries (p.network entries) := by
  induction entries using List.reverseRecOn with
  | nil =>
    obtain ⟨hvalid, hmem, harcs⟩ :=
      Network.valid_ofVertices (K := K) (p.terminals.map Site.vertex)
    refine ⟨hvalid, fun v hv => (hmem _).mpr (List.mem_map_of_mem hv), fun s t hst => ?_,
      fun s t c hst => ?_⟩
    all_goals simp [network, Network.link?_of_noArcs harcs] at hst
  | append_singleton entries e ih =>
    have he : e ∈ entries ++ [e] := List.mem_append_right _ (List.mem_singleton.mpr rfl)
    rw [network_append]
    exact ((ih.mono (List.subset_append_left _ _)).enterAll he fun _ hv => hv).1.leave he

theorem separates_of_measure [Backend K] {p : SteinerTree K S} (h0 : 0 ≤ p.tolerance.epsilon)
    (hflow : (Backend.flow : FlowFinder Site K).Maximal)
    {entries : List (Nat × Component K × K)} {v : Node} {viol : Violation K Node}
    (hv : v ∈ p.terminals.tail) (hm : p.measure (p.network entries) v = .ok viol) :
    viol.side = 1 ∧ v ∈ viol.witness ∧ ∀ w ∈ viol.witness, w ∈ p.terminals.tail := by
  have hr := p.routed_network entries
  obtain ⟨cut, hcut, hm⟩ := ok_bind_iff.mp hm
  obtain rfl := Except.ok.inj hm
  obtain ⟨hasked, -, hreach⟩ := FlowFinder.of_siteCut hr.valid hcut
  obtain ⟨hnear, hfar⟩ := (hflow _ _ _ hasked).separates hr.valid hasked.2.2.2.1 hasked.2.1 h0
  rw [← hreach] at hnear hfar
  refine ⟨rfl, ?_, fun w hw => ?_⟩
  · simp [Cut.mem_nodes.mpr hnear, List.mem_of_mem_tail hv]
  · obtain ⟨hw, hwt⟩ := List.mem_filter.mp hw
    have hwt : w ∈ p.terminals := by simpa using hwt
    cases hp : p.terminals with
    | nil => simp [hp] at hwt
    | cons root rest =>
      rw [hp] at hwt hfar
      rcases List.mem_cons.mp hwt with rfl | hwt
      · exact absurd (Cut.mem_nodes.mp hw) hfar
      · exact hwt

/-- For every set of terminals without the root, one component that leaves it. -/
def directedCuts (p : SteinerTree K S) : Set (Row K) :=
  { r | ∃ set : List Node, set ≠ [] ∧ set ⊆ p.terminals.tail ∧
    r = cover .lower 1 0 (Model.positions (leaves · set) p.components) }

variable [Backend K] {p : SteinerTree K S} {m : Model K}

theorem cutRow_mem (h0 : 0 ≤ p.tolerance.epsilon)
    (hflow : (Backend.flow : FlowFinder Site K).Maximal) {v : Violation K Node}
    (h : Oracle.Finds checker p m v) : p.cutRow v ∈ p.directedCuts := by
  obtain ⟨n, cs, hprep, c, hc, hv⟩ := h
  obtain ⟨entries, -, hprep⟩ := ok_bind_iff.mp hprep
  obtain ⟨rfl, rfl⟩ := Prod.mk.inj (Except.ok.inj hprep)
  obtain ⟨hside, hin, hsub⟩ := separates_of_measure h0 hflow hc hv
  refine ⟨v.witness, List.ne_nil_of_mem hin, hsub, ?_⟩
  rw [← hside]
  rfl

theorem exists_measure (hn : p.terminals.Nodup) (entries : List (Nat × Component K × K)) {v : Node}
    (hv : v ∈ p.terminals.tail) : ∃ viol, p.measure (p.network entries) v = .ok viol := by
  have hr := p.routed_network entries
  cases hp : p.terminals with
  | nil => simp [hp] at hv
  | cons root rest =>
    rw [hp, List.tail_cons] at hv
    have hne : Site.vertex v ≠ .vertex root := by
      rintro heq
      obtain rfl := Site.vertex.inj heq
      exact (List.nodup_cons.mp (hp ▸ hn)).1 hv
    obtain ⟨cut, hcut⟩ := FlowFinder.exists_siteCut Backend.flow hr.valid
      (hr.terminals v (hp ▸ List.mem_cons_of_mem _ hv))
      (hr.terminals root (hp ▸ List.mem_cons_self)) hne (fun s hs => by
        obtain ⟨_, -, _, -, -, heq⟩ := hr.wide _ _ hs
        cases heq) p.tolerance.epsilon
    refine ⟨_, ok_bind_iff.mpr ⟨cut, ?_, rfl⟩⟩
    rw [hp]
    exact hcut

theorem one_le_magnitude (hflow : (Backend.flow : FlowFinder Site K).Sound) {v : Node}
    {viol : Violation K Node} (hm : p.measure (p.network []) v = .ok viol) :
    1 ≤ viol.magnitude := by
  have hr := p.routed_network []
  obtain ⟨cut, hcut, hm⟩ := ok_bind_iff.mp hm
  obtain rfl := Except.ok.inj hm
  obtain ⟨hasked, hvalue, -⟩ := FlowFinder.of_siteCut hr.valid hcut
  have hf := hflow _ _ _ hasked
  have hno (s t : Site) : (p.network []).room s t = 0 := by
    by_contra hroom
    rcases hr.of_room_ne_zero hroom with ⟨_, he, -⟩ | ⟨_, he, -⟩ <;> cases he
  have hle := hf.value_le_sum_room hasked.2.1 hasked.2.2.1 hasked.2.2.2.1
  simp only [hno, Finset.sum_const_zero] at hle
  show 1 ≤ 1 - cut.value
  rw [hvalue]
  linarith

end LPRounding.SteinerTree
