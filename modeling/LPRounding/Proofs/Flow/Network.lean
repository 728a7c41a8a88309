import LPRounding.Proofs.Exact
import LPRounding.Proofs.Sums
import LPRounding.Flow.Network

/-!
Networks by the names of their vertices. There is at most one arc between two vertices in each
direction, and adding or changing one leaves all others as they are.
-/

namespace LPRounding.Network

set_option linter.unusedSectionVars false

variable {V K : Type} [DecidableEq V]

structure Valid (n : Network V K) : Prop where
  nodup : n.vertices.Nodup
  inside : ∀ a ∈ n.arcs, a.tail < n.vertices.length ∧ a.head < n.vertices.length
  distinct : (n.arcs.map fun a => (a.tail, a.head)).Nodup

/-- The capacity of the arc from one vertex to another, if there is one. -/
def link? (n : Network V K) (u v : V) : Option (Option K) := (n.arc? u v).map Arc.capacity

variable {n : Network V K} {u v w : V}

theorem isArc_iff {i j : Nat} {a : Arc Nat K} : isArc i j a = true ↔ a.tail = i ∧ a.head = j := by
  simp [isArc]

theorem place_lt (h : u ∈ n.vertices) : n.place u < n.vertices.length :=
  List.idxOf_lt_length_of_mem h

theorem place_inj (h : u ∈ n.vertices) : n.place u = n.place v ↔ u = v := List.idxOf_inj h

theorem exists_place {i : Nat} (h : n.Valid) (hi : i < n.vertices.length) :
    ∃ u ∈ n.vertices, n.place u = i :=
  ⟨n.vertices[i], List.getElem_mem hi, h.nodup.idxOf_getElem i hi⟩

@[simp] theorem arcs_addVertex : (n.addVertex v).arcs = n.arcs := by
  unfold addVertex
  split <;> rfl

theorem mem_addVertex : u ∈ (n.addVertex v).vertices ↔ u ∈ n.vertices ∨ u = v := by
  unfold addVertex
  split
  · next h =>
    constructor
    · exact .inl
    · rintro (h' | rfl)
      · exact h'
      · exact h
  · simp

theorem length_addVertex : n.vertices.length ≤ (n.addVertex v).vertices.length := by
  unfold addVertex
  split <;> simp

theorem place_addVertex (h : u ∈ n.vertices) : (n.addVertex v).place u = n.place u := by
  unfold addVertex
  split
  · rfl
  · exact List.idxOf_append_of_mem h

theorem le_place_addVertex (h : u ∉ n.vertices) :
    n.vertices.length ≤ (n.addVertex v).place u := by
  unfold addVertex
  split
  · exact (List.idxOf_eq_length h).ge
  · rw [place, List.idxOf_append_of_notMem h]
    exact Nat.le_add_right _ _

theorem Valid.addVertex (h : n.Valid) (v : V) : (n.addVertex v).Valid := by
  refine ⟨?_, ?_, ?_⟩
  · unfold Network.addVertex
    split
    · exact h.nodup
    · next hv =>
      rw [← List.concat_eq_append]
      exact h.nodup.concat hv
  · intro a ha
    rw [arcs_addVertex] at ha
    obtain ⟨ht, hh⟩ := h.inside a ha
    exact ⟨ht.trans_le length_addVertex, hh.trans_le length_addVertex⟩
  · rw [arcs_addVertex]
    exact h.distinct

theorem Valid.find?_eq_none (h : n.Valid) {i j : Nat}
    (hij : n.vertices.length ≤ i ∨ n.vertices.length ≤ j) :
    n.arcs.find? (isArc i j) = none := by
  rw [List.find?_eq_none]
  intro a ha hia
  obtain ⟨rfl, rfl⟩ := isArc_iff.mp hia
  obtain ⟨ht, hh⟩ := h.inside a ha
  omega

theorem Valid.link?_addVertex (h : n.Valid) : (n.addVertex w).link? u v = n.link? u v := by
  have hnew {x : V} (hx : x ∉ n.vertices) := le_place_addVertex (v := w) hx
  have hold {x : V} (hx : x ∉ n.vertices) : n.vertices.length ≤ n.place x :=
    (List.idxOf_eq_length hx).ge
  unfold link? arc?
  rw [arcs_addVertex]
  by_cases hu : u ∈ n.vertices
  · by_cases hv : v ∈ n.vertices
    · rw [place_addVertex hu, place_addVertex hv]
    · rw [h.find?_eq_none (.inr (hnew hv)), h.find?_eq_none (.inr (hold hv))]
  · rw [h.find?_eq_none (.inl (hnew hu)), h.find?_eq_none (.inl (hold hu))]

theorem mem_of_link? (h : n.Valid) {c : Option K} (hl : n.link? u v = some c) :
    u ∈ n.vertices ∧ v ∈ n.vertices := by
  obtain ⟨a, ha, -⟩ := Option.map_eq_some_iff.mp hl
  obtain ⟨htail, hhead⟩ := isArc_iff.mp (List.find?_some ha)
  obtain ⟨ht, hh⟩ := h.inside a (List.mem_of_find?_eq_some ha)
  exact ⟨List.idxOf_lt_length_iff.mp (htail.ge.trans_lt ht),
    List.idxOf_lt_length_iff.mp (hhead.ge.trans_lt hh)⟩

section Update

variable {new : Option K} {change : Option K → Option K}

theorem vertices_update :
    (n.update u v new change).vertices = ((n.addVertex u).addVertex v).vertices := by
  unfold update
  simp only
  split <;> rfl

theorem mem_update : w ∈ (n.update u v new change).vertices ↔
    w ∈ n.vertices ∨ w = u ∨ w = v := by
  rw [vertices_update, mem_addVertex, mem_addVertex, or_assoc]

theorem Valid.update (h : n.Valid) : (n.update u v new change).Valid := by
  have h' := (h.addVertex u).addVertex v
  have hu : u ∈ ((n.addVertex u).addVertex v).vertices := by simp [mem_addVertex]
  have hv : v ∈ ((n.addVertex u).addVertex v).vertices := by simp [mem_addVertex]
  refine ⟨?_, ?_, ?_⟩
  · rw [vertices_update]
    exact h'.nodup
  · rw [vertices_update]
    unfold Network.update
    simp only
    split
    · intro a ha
      rcases List.mem_append.mp ha with ha | ha
      · exact h'.inside a ha
      · obtain rfl := List.mem_singleton.mp ha
        exact ⟨place_lt hu, place_lt hv⟩
    · intro a ha
      obtain ⟨b, hb, rfl⟩ := List.mem_map.mp ha
      split <;> exact h'.inside b hb
  · unfold Network.update
    simp only
    split
    · next hnone =>
      rw [List.map_append, List.nodup_append]
      refine ⟨h'.distinct, List.nodup_singleton _, ?_⟩
      rintro _ ha _ hb rfl
      obtain ⟨a, ha, heq⟩ := List.mem_map.mp ha
      obtain ⟨ht, hh⟩ := Prod.mk.inj (heq.trans (List.mem_singleton.mp hb))
      exact List.find?_eq_none.mp hnone a ha (isArc_iff.mpr ⟨ht, hh⟩)
    · rw [List.map_map]
      convert h'.distinct using 2
      funext a
      simp only [Function.comp_apply]
      split <;> rfl

/-- An update says what the arc between its ends becomes and touches no other. -/
theorem Valid.link?_update (h : n.Valid) (a b : V) : (n.update u v new change).link? a b =
    if a = u ∧ b = v then some ((n.link? u v).elim new change) else n.link? a b := by
  have h' := (h.addVertex u).addVertex v
  have hl (a b : V) : ((n.addVertex u).addVertex v).link? a b = n.link? a b := by
    rw [(h.addVertex u).link?_addVertex, h.link?_addVertex]
  rw [← hl a b, ← hl u v]
  have hu : u ∈ ((n.addVertex u).addVertex v).vertices := by simp [mem_addVertex]
  have hv : v ∈ ((n.addVertex u).addVertex v).vertices := by simp [mem_addVertex]
  have hplace : (n.update u v new change).place = ((n.addVertex u).addVertex v).place := by
    funext x
    rw [place, vertices_update, place]
  unfold link? arc?
  rw [hplace]
  unfold Network.update
  simp only
  generalize (n.addVertex u).addVertex v = n' at *
  have hends {c d : V} : (n'.place u = n'.place c ∧ n'.place v = n'.place d) ↔
      (c = u ∧ d = v) := by
    rw [place_inj hu, place_inj hv, eq_comm, @eq_comm _ v]
  split
  · next hnone =>
    rw [List.find?_append, hnone, Option.map_none, Option.elim_none]
    by_cases hab : a = u ∧ b = v
    · obtain ⟨rfl, rfl⟩ := hab
      simp [hnone, isArc]
    · have hno : isArc (n'.place a) (n'.place b)
          { tail := n'.place u, head := n'.place v, capacity := new } = false := by
        rw [Bool.eq_false_iff, Ne, isArc_iff, hends]
        exact hab
      simp [hno, hab]
  · next c hc =>
    have hkeep (i j : Nat) : isArc i j ∘ (fun x : Arc Nat K =>
        if isArc (n'.place u) (n'.place v) x then { x with capacity := change x.capacity } else x) =
        isArc i j := by
      funext x
      simp only [Function.comp_apply]
      split <;> rfl
    rw [List.find?_map, hkeep, hc, Option.map_some, Option.elim_some]
    by_cases hab : a = u ∧ b = v
    · obtain ⟨rfl, rfl⟩ := hab
      rw [if_pos ⟨rfl, rfl⟩, hc, Option.map_some, Option.map_some]
      rw [if_pos (List.find?_some hc)]
    · rw [if_neg hab]
      cases hf : n'.arcs.find? (isArc (n'.place a) (n'.place b)) with
      | none => rfl
      | some d =>
        have hd : ¬ isArc (n'.place u) (n'.place v) d = true := by
          intro hd
          obtain ⟨h₁, h₂⟩ := isArc_iff.mp hd
          obtain ⟨h₃, h₄⟩ := isArc_iff.mp (List.find?_some hf)
          exact hab (hends.mp ⟨h₁.symm.trans h₃, h₂.symm.trans h₄⟩)
        rw [Option.map_some, Option.map_some, if_neg hd]
        rfl

end Update

theorem Valid.link?_setArc (h : n.Valid) (c : K) (a b : V) :
    (n.setArc u v (some c)).link? a b = if a = u ∧ b = v then some (some c) else n.link? a b := by
  rw [setArc, h.link?_update]
  cases n.link? u v <;> rfl

theorem Valid.link?_release (h : n.Valid) (a b : V) :
    (n.release u v).link? a b = if a = u ∧ b = v then some none else n.link? a b := by
  rw [release, h.link?_update]
  cases n.link? u v <;> rfl

theorem valid_empty : ({} : Network V K).Valid := ⟨List.nodup_nil, by simp, by simp⟩

theorem valid_ofVertices (vs : List V) : (ofVertices vs : Network V K).Valid ∧
    (∀ v, v ∈ (ofVertices vs : Network V K).vertices ↔ v ∈ vs) ∧
    (ofVertices vs : Network V K).arcs = [] := by
  have hfold (n : Network V K) (h : n.Valid) (ha : n.arcs = []) :
      (vs.foldl addVertex n).Valid ∧
        (∀ v, v ∈ (vs.foldl addVertex n).vertices ↔ v ∈ n.vertices ∨ v ∈ vs) ∧
        (vs.foldl addVertex n).arcs = [] := by
    induction vs generalizing n with
    | nil => exact ⟨h, by simp, ha⟩
    | cons w vs ih =>
      obtain ⟨h₁, h₂, h₃⟩ := ih (n.addVertex w) (h.addVertex w) (by rw [arcs_addVertex, ha])
      refine ⟨h₁, fun v => ?_, h₃⟩
      rw [List.foldl_cons, h₂, mem_addVertex, List.mem_cons, or_assoc]
  obtain ⟨h₁, h₂, h₃⟩ := hfold {} valid_empty rfl
  exact ⟨h₁, fun v => (h₂ v).trans (by simp), h₃⟩

theorem link?_of_noArcs (h : n.arcs = []) : n.link? u v = none := by
  simp [link?, arc?, h]

section Edges

variable [Scalar K]

theorem Valid.link?_addArc (h : n.Valid) (c : K) (a b : V) :
    (n.addArc u v c).link? a b = if a = u ∧ b = v then
      some ((n.link? u v).elim (some c) fun old => old.map (· + c)) else n.link? a b :=
  h.link?_update a b

theorem Valid.addEdge (h : n.Valid) (c : K) : (n.addEdge u v c).Valid := Valid.update (Valid.update h)

theorem mem_addEdge {c : K} :
    w ∈ (n.addEdge u v c).vertices ↔ w ∈ n.vertices ∨ w = u ∨ w = v := by
  unfold addEdge addArc
  rw [mem_update, mem_update]
  tauto

end Edges

section Room

variable [Field K] [LinearOrder K] [IsStrictOrderedRing K] [FloorRing K]

def room (n : Network V K) (u v : V) : K :=
  if u = v then 0 else (n.link? u v).elim 0 fun c => c.elim n.plenty fun c => max c 0

theorem isOpen_iff {a : Arc Nat K} :
    a.isOpen = true ↔ a.tail ≠ a.head ∧ ∀ c, a.capacity = some c → 0 < c := by
  cases hc : a.capacity <;> simp [Arc.isOpen, hc]

@[simp] theorem bound?_eq (a : Arc Nat K) : a.bound? = a.capacity := by
  cases hc : a.capacity <;> simp [Arc.bound?, hc]

theorem total_nonneg (n : Network V K) : 0 ≤ (n.openArcs.filterMap Arc.bound?).sum := by
  refine List.sum_nonneg fun c hc => ?_
  obtain ⟨a, ha, hac⟩ := List.mem_filterMap.mp hc
  rw [bound?_eq] at hac
  exact ((isOpen_iff.mp (List.mem_filter.mp ha).2).2 c hac).le

theorem total_lt_plenty (n : Network V K) :
    (n.openArcs.filterMap Arc.bound?).sum < n.plenty := by
  have h := n.total_nonneg
  simp only [plenty, Scalar.sum_eq, Scalar.ofInt_eq, beq_iff_eq]
  split
  · next hz => exact hz ▸ zero_lt_one
  · next hne =>
    have hpos := lt_of_le_of_ne h (Ne.symm hne)
    push_cast
    linarith

theorem plenty_pos (n : Network V K) : 0 < n.plenty := n.total_nonneg.trans_lt n.total_lt_plenty

theorem room_nonneg (n : Network V K) (u v : V) : 0 ≤ n.room u v := by
  unfold room
  split
  · exact le_rfl
  · cases n.link? u v with
    | none => exact le_rfl
    | some c =>
      cases c with
      | none => exact n.plenty_pos.le
      | some c => exact le_max_right c 0

theorem Valid.link?_of_mem (h : n.Valid) {a : Arc Nat K} (ha : a ∈ n.arcs) (ht : a.tail = n.place u)
    (hh : a.head = n.place v) : n.link? u v = some a.capacity := by
  unfold link? arc?
  have hsome : (n.arcs.find? (isArc (n.place u) (n.place v))).isSome := by
    rw [List.find?_isSome]
    exact ⟨a, ha, isArc_iff.mpr ⟨ht, hh⟩⟩
  obtain ⟨b, hb⟩ := Option.isSome_iff_exists.mp hsome
  obtain ⟨hbt, hbh⟩ := isArc_iff.mp (List.find?_some hb)
  have hab : a = b := by
    refine List.inj_on_of_nodup_map h.distinct ha (List.mem_of_find?_eq_some hb) ?_
    rw [ht, hh, hbt, hbh]
  rw [hb, hab, Option.map_some]

theorem Valid.room_of_open (h : n.Valid) {a : Arc Nat K} (ha : a ∈ n.openArcs)
    (ht : a.tail = n.place u) (hh : a.head = n.place v) :
    amount n.plenty a = n.room u v := by
  obtain ⟨hm, ho⟩ := List.mem_filter.mp ha
  obtain ⟨hne, hpos⟩ := isOpen_iff.mp ho
  have huv : u ≠ v := by
    rintro rfl
    exact hne (ht.trans hh.symm)
  rw [room, if_neg huv, h.link?_of_mem hm ht hh, amount, bound?_eq]
  cases hc : a.capacity with
  | none => rfl
  | some c => exact (max_eq_left (hpos c hc).le).symm

theorem room_of_closed (h : ∀ a ∈ n.openArcs, ¬ (a.tail = n.place u ∧ a.head = n.place v))
    (hu : u ∈ n.vertices) : n.room u v = 0 := by
  unfold room
  split
  · rfl
  next huv =>
  cases hl : n.link? u v with
  | none => rfl
  | some c =>
    obtain ⟨a, ha, rfl⟩ := Option.map_eq_some_iff.mp hl
    obtain ⟨ht, hh⟩ := isArc_iff.mp (List.find?_some ha)
    have hclosed : ¬ a.isOpen = true := fun ho =>
      h a (List.mem_filter.mpr ⟨List.mem_of_find?_eq_some ha, ho⟩) ⟨ht, hh⟩
    have hne : a.tail ≠ a.head := by
      rw [ht, hh, Ne, place_inj hu]
      exact huv
    rw [isOpen_iff] at hclosed
    push Not at hclosed
    obtain ⟨c, hc, hle⟩ := hclosed hne
    rw [hc]
    exact max_eq_right hle

/-- The capacity of a bounded arc; an unbounded one counts for nothing. -/
def bounded (a : Arc Nat K) : K := a.capacity.getD 0

theorem bounded_nonneg {a : Arc Nat K} (ha : a ∈ n.openArcs) : 0 ≤ bounded a := by
  unfold bounded
  cases hc : a.capacity with
  | none => exact le_rfl
  | some c => exact ((isOpen_iff.mp (List.mem_filter.mp ha).2).2 c hc).le

theorem sum_bounded (as : List (Arc Nat K)) :
    (as.map bounded).sum = (as.filterMap Arc.bound?).sum := by
  induction as with
  | nil => rfl
  | cons a rest ih =>
    rw [List.map_cons, List.sum_cons, ih, List.filterMap_cons, bound?_eq, bounded]
    cases a.capacity <;> simp

theorem Valid.room_le_sum (h : n.Valid) (hu : u ∈ n.vertices) (hfin : n.link? u v ≠ some none) :
    n.room u v ≤ (n.openArcs.map fun a =>
      if a.tail = n.place u ∧ a.head = n.place v then bounded a else 0).sum := by
  have hnonneg : ∀ x ∈ n.openArcs.map fun a =>
      if a.tail = n.place u ∧ a.head = n.place v then bounded a else 0, 0 ≤ x := by
    intro x hx
    obtain ⟨a, ha, rfl⟩ := List.mem_map.mp hx
    split
    · exact bounded_nonneg ha
    · exact le_rfl
  by_cases hopen : ∃ a ∈ n.openArcs, a.tail = n.place u ∧ a.head = n.place v
  · obtain ⟨a, ha, ht, hh⟩ := hopen
    refine List.single_le_sum hnonneg _ (List.mem_map.mpr ⟨a, ha, ?_⟩)
    rw [if_pos ⟨ht, hh⟩, ← h.room_of_open ha ht hh, amount, bound?_eq, bounded]
    have hlink := h.link?_of_mem (List.mem_filter.mp ha).1 ht hh
    cases hc : a.capacity with
    | none => exact absurd (hc ▸ hlink) hfin
    | some c => rfl
  · push Not at hopen
    rw [room_of_closed (fun a ha hae => hopen a ha hae.1 hae.2) hu]
    exact List.sum_nonneg hnonneg

theorem Valid.sum_ends_le (h : n.Valid) (pairs : Finset (V × V)) {a : Arc Nat K}
    (ha : a ∈ n.openArcs) : ∑ e ∈ pairs,
      (if a.tail = n.place e.1 ∧ a.head = n.place e.2 then bounded a else 0) ≤ bounded a := by
  have hin := h.inside a (List.mem_filter.mp ha).1
  obtain ⟨u, hu, htail⟩ := exists_place h hin.1
  obtain ⟨v, hv, hhead⟩ := exists_place h hin.2
  have hends (e : V × V) : (a.tail = n.place e.1 ∧ a.head = n.place e.2) ↔ (u, v) = e := by
    rw [← htail, ← hhead, place_inj hu, place_inj hv, Prod.ext_iff]
  simp only [hends, Finset.sum_ite_eq]
  split
  · exact le_rfl
  · exact bounded_nonneg ha

theorem Valid.sum_pairs_le_total (h : n.Valid) {pairs : Finset (V × V)}
    (hin : ∀ e ∈ pairs, e.1 ∈ n.vertices) (hfin : ∀ e ∈ pairs, n.link? e.1 e.2 ≠ some none) :
    ∑ e ∈ pairs, n.room e.1 e.2 ≤ (n.openArcs.filterMap Arc.bound?).sum :=
  calc ∑ e ∈ pairs, n.room e.1 e.2
      ≤ ∑ e ∈ pairs, (n.openArcs.map fun a =>
          if a.tail = n.place e.1 ∧ a.head = n.place e.2 then bounded a else 0).sum :=
        Finset.sum_le_sum fun e he => h.room_le_sum (hin e he) (hfin e he)
    _ = (n.openArcs.map fun a => ∑ e ∈ pairs,
          if a.tail = n.place e.1 ∧ a.head = n.place e.2 then bounded a else 0).sum :=
        (sum_map_sum _ _ _).symm
    _ ≤ (n.openArcs.map bounded).sum := List.sum_le_sum fun _ ha => h.sum_ends_le pairs ha
    _ = (n.openArcs.filterMap Arc.bound?).sum := sum_bounded _

theorem Valid.sum_room_le_total (h : n.Valid) {t : V} (hfin : ∀ u, n.link? u t ≠ some none) :
    ∑ u ∈ n.vertices.toFinset, n.room u t ≤ (n.openArcs.filterMap Arc.bound?).sum := by
  have hpairs : ∑ e ∈ n.vertices.toFinset ×ˢ {t}, n.room e.1 e.2 ≤
      (n.openArcs.filterMap Arc.bound?).sum := by
    refine h.sum_pairs_le_total (fun e he => ?_) fun e he => ?_
    · exact List.mem_toFinset.mp (Finset.mem_product.mp he).1
    · rw [Finset.mem_singleton.mp (Finset.mem_product.mp he).2]
      exact hfin e.1
  simpa [Finset.sum_product] using hpairs

theorem Valid.sum_room_lt_plenty (h : n.Valid) {t : V} (hfin : ∀ u, n.link? u t ≠ some none) :
    ∑ u ∈ n.vertices.toFinset, n.room u t < n.plenty :=
  (h.sum_room_le_total hfin).trans_lt n.total_lt_plenty

theorem three_mul_total_le (n : Network V K) :
    3 * (n.openArcs.filterMap Arc.bound?).sum ≤ n.plenty := by
  simp only [plenty, Scalar.sum_eq, Scalar.ofInt_eq, beq_iff_eq]
  split
  · next hz =>
    rw [hz, mul_zero]
    exact zero_le_one
  · push_cast
    exact le_rfl

end Room

end LPRounding.Network
