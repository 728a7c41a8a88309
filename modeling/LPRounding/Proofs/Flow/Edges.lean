import LPRounding.Proofs.Flow.Cut
import LPRounding.Graph.Basic

/-!
Networks made of edges. Parallel edges add up, so the room across a cut is the sum over the edges
that cross it.
-/

namespace LPRounding.Network

set_option linter.unusedSectionVars false

variable {V K α : Type} [DecidableEq V] [Field K] [LinearOrder K] [IsStrictOrderedRing K]
  [FloorRing K]

/-- Capacities add up to `f`; where there is no arc, that is zero. -/
structure Spread (n : Network V K) (f : V → V → K) : Prop where
  valid : n.Valid
  link : ∀ u v, (n.link? u v = none ∧ f u v = 0) ∨ n.link? u v = some (some (f u v))

variable {n : Network V K} {f : V → V → K} {u v : V}

theorem Spread.addArc (h : n.Spread f) (c : K) :
    (n.addArc u v c).Spread fun a b => f a b + if a = u ∧ b = v then c else 0 := by
  refine ⟨h.valid.update, fun a b => ?_⟩
  rw [h.valid.link?_addArc]
  by_cases hab : a = u ∧ b = v
  · obtain ⟨rfl, rfl⟩ := hab
    rcases h.link a b with ⟨hl, hf⟩ | hl
    · right
      simp [hl, hf]
    · right
      simp [hl]
  · simpa [hab] using h.link a b

theorem Spread.room_eq (h : n.Spread f) (huv : u ≠ v) (hf : 0 ≤ f u v) : n.room u v = f u v := by
  rw [room, if_neg huv]
  rcases h.link u v with ⟨hl, h0⟩ | hl
  · rw [hl, h0]
    rfl
  · rw [hl]
    exact max_eq_left hf

section Edges

variable (a b : α → V) (c : α → K)

def between (es : List α) (u v : V) : K :=
  (es.map fun e => (if u = a e ∧ v = b e then c e else 0) +
    if u = b e ∧ v = a e then c e else 0).sum

variable {a b c} {es : List α}

theorem between_cons (e : α) : between a b c (e :: es) u v =
    ((if u = a e ∧ v = b e then c e else 0) + if u = b e ∧ v = a e then c e else 0) +
      between a b c es u v := by
  rw [between, List.map_cons, List.sum_cons, between]

theorem between_nonneg (hc : ∀ e ∈ es, 0 ≤ c e) (u v : V) : 0 ≤ between a b c es u v := by
  refine List.sum_nonneg fun x hx => ?_
  obtain ⟨e, he, rfl⟩ := List.mem_map.mp hx
  have := hc e he
  split <;> split <;> linarith

theorem Spread.foldl_addEdge (es : List α) (h : n.Spread f) :
    let n' := es.foldl (fun n e => n.addEdge (a e) (b e) (c e)) n
    n'.Spread (fun u v => f u v + between a b c es u v) ∧
      ∀ v, v ∈ n'.vertices ↔ v ∈ n.vertices ∨ ∃ e ∈ es, v = a e ∨ v = b e := by
  induction es generalizing n f with
  | nil =>
    refine ⟨?_, by simp⟩
    simpa [between] using h
  | cons e es ih =>
    obtain ⟨hs, hv⟩ := ih ((h.addArc (c e)).addArc (u := b e) (v := a e) (c e))
    refine ⟨?_, fun v => ?_⟩
    · have hf : (fun u v => f u v + between a b c (e :: es) u v) = fun u v =>
          ((f u v + if u = a e ∧ v = b e then c e else 0) +
            if u = b e ∧ v = a e then c e else 0) + between a b c es u v := by
        funext u v
        rw [between_cons]
        ring
      exact hf ▸ hs
    · rw [List.foldl_cons]
      refine (hv v).trans ?_
      rw [← Network.addEdge, mem_addEdge]
      simp only [List.mem_cons, exists_eq_or_imp, or_assoc]

theorem sum_between (near far : Finset V) :
    ∑ u ∈ near, ∑ v ∈ far, between a b c es u v =
      (es.map fun e => (if a e ∈ near ∧ b e ∈ far then c e else 0) +
        if b e ∈ near ∧ a e ∈ far then c e else 0).sum := by
  have hone (x y : V) (d : K) : ∑ u ∈ near, ∑ v ∈ far, (if u = x ∧ v = y then d else 0) =
      if x ∈ near ∧ y ∈ far then d else 0 := by
    simp only [ite_and, Finset.sum_ite_irrel, Finset.sum_ite_eq', Finset.sum_const_zero]
  simp only [between, ← sum_map_sum, Finset.sum_add_distrib, hone]

/-- The room across a cut of such a network. -/
theorem Spread.cutRoom_eq (h : n.Spread (between a b c es)) (hc : ∀ e ∈ es, 0 ≤ c e)
    (hends : ∀ e ∈ es, a e ∈ n.vertices ∧ b e ∈ n.vertices) (near : Finset V) :
    n.cutRoom near =
      (es.map fun e => if decide (a e ∈ near) ≠ decide (b e ∈ near) then c e else 0).sum := by
  have hroom : n.cutRoom near =
      ∑ u ∈ near, ∑ v ∈ n.vertices.toFinset \ near, between a b c es u v := by
    refine Finset.sum_congr rfl fun u hu => Finset.sum_congr rfl fun v hv => ?_
    have huv : u ≠ v := by
      rintro rfl
      exact (Finset.mem_sdiff.mp hv).2 hu
    exact h.room_eq huv (between_nonneg hc u v)
  rw [hroom, sum_between]
  congr 1
  refine List.map_congr_left fun e he => ?_
  obtain ⟨ha, hb⟩ := hends e he
  by_cases hna : a e ∈ near <;> by_cases hnb : b e ∈ near <;>
    simp [hna, hnb, ha, hb]

end Edges

section Graphs

variable {entries : List (Edge K × K)}

/-- What edges of a graph carry between two sites, each with its value. -/
def capacity (entries : List (Edge K × K)) : Site → Site → K :=
  between (fun e => .vertex e.1.name.u) (fun e => .vertex e.1.name.v) Prod.snd entries

theorem capacity_vertex (u v : Node) : capacity entries (.vertex u) (.vertex v) =
    between (fun e => e.1.name.u) (fun e => e.1.name.v) Prod.snd entries u v := by
  simp only [capacity, between, Site.vertex.injEq]

theorem capacity_nonneg (h : ∀ e ∈ entries, 0 ≤ e.2) (s t : Site) : 0 ≤ capacity entries s t :=
  between_nonneg h s t

theorem capacity_of_not_vertex {s t : Site} (h : (∀ v, s ≠ .vertex v) ∨ ∀ v, t ≠ .vertex v) :
    capacity entries s t = 0 := by
  refine List.sum_eq_zero fun x hx => ?_
  obtain ⟨e, -, rfl⟩ := List.mem_map.mp hx
  rcases h with h | h <;> simp [h]

theorem spread_graph (vs : List Node) (entries : List (Edge K × K)) :
    let n : Network Site K := entries.foldl
      (fun n e => n.addEdge (.vertex e.1.name.u) (.vertex e.1.name.v) e.2)
      (.ofVertices (vs.map .vertex))
    n.Spread (capacity entries) ∧ ∀ s, s ∈ n.vertices ↔ (∃ v ∈ vs, .vertex v = s) ∨
      ∃ e ∈ entries, s = .vertex e.1.name.u ∨ s = .vertex e.1.name.v := by
  obtain ⟨hv, hm, ha⟩ := valid_ofVertices (K := K) (vs.map Site.vertex)
  have hempty : (ofVertices (vs.map Site.vertex)).Spread fun _ _ => (0 : K) :=
    ⟨hv, fun u v => .inl ⟨link?_of_noArcs ha, rfl⟩⟩
  obtain ⟨hs, hmem⟩ := hempty.foldl_addEdge entries
    (a := fun e => .vertex e.1.name.u) (b := fun e => .vertex e.1.name.v) (c := Prod.snd)
  refine ⟨?_, fun s => ?_⟩
  · simp only [zero_add] at hs
    exact hs
  · refine (hmem s).trans (or_congr_left ?_)
    rw [hm, List.mem_map]

end Graphs

end LPRounding.Network
