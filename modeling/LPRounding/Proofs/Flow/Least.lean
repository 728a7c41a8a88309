import LPRounding.Proofs.Flow.Slack

/-!
Least cuts. What the source of a maximum flow reaches is part of the near side of every minimum cut,
so it does not depend on the flow that was found. Flows are found with a bound on the arcs that have
none; a tolerance that is large beside all finite capacity may leave such an arc across the cut.
-/

namespace LPRounding.Network

set_option linter.unusedSectionVars false

variable {V K : Type} [DecidableEq V] [Field K] [LinearOrder K] [IsStrictOrderedRing K]
  [FloorRing K]

def width (n : Network V K) (u v : V) : WithTop K :=
  (n.link? u v).elim 0 fun c => c.elim ⊤ fun c => (c : WithTop K)

/-- Capacity of the arcs that leave a set of vertices. -/
def widthAcross (n : Network V K) (near : Finset V) : WithTop K :=
  ∑ u ∈ near, ∑ v ∈ n.vertices.toFinset \ near, n.width u v

/-- The pairs of vertices across a set that an arc joins, whichever way it leads. -/
def gates (n : Network V K) (near : Finset V) : Finset (V × V) :=
  (near ×ˢ (n.vertices.toFinset \ near)).filter fun e =>
    (n.link? e.1 e.2).isSome ∨ (n.link? e.2 e.1).isSome

/-- No unbounded arc leaves a set of vertices. -/
def Tight (n : Network V K) (near : Finset V) : Prop :=
  ∀ u ∈ near, ∀ v ∈ n.vertices, v ∉ near → n.link? u v ≠ some none

variable {n : Network V K} {s t u v : V} {f g : Flow K} {near other : Finset V} {tolerance : K}

theorem joints_subset_gates (n : Network V K) (near : Finset V) : n.joints near ⊆ n.gates near := by
  have hlink {u v : V} (hroom : n.room u v ≠ 0) : (n.link? u v).isSome := by
    unfold room at hroom
    cases hl : n.link? u v with
    | none => simp [hl] at hroom
    | some c => rfl
  intro e he
  obtain ⟨hpair, hroom⟩ := Finset.mem_filter.mp he
  exact Finset.mem_filter.mpr ⟨hpair, hroom.imp hlink hlink⟩

theorem coe_room (hcap : ∀ a ∈ n.arcs, ∀ c ∈ a.capacity, 0 ≤ c) (huv : u ≠ v)
    (hfin : n.link? u v ≠ some none) : (n.room u v : WithTop K) = n.width u v := by
  unfold room width
  rw [if_neg huv]
  cases hl : n.link? u v with
  | none => rfl
  | some c =>
    cases c with
    | none => exact absurd hl hfin
    | some c =>
      obtain ⟨a, ha, hac⟩ := Option.map_eq_some_iff.mp hl
      have hc : 0 ≤ c := hcap a (List.mem_of_find?_eq_some ha) c hac
      exact congrArg _ (max_eq_left hc)

theorem Tight.widthAcross_eq (h : n.Tight near) (hcap : ∀ a ∈ n.arcs, ∀ c ∈ a.capacity, 0 ≤ c) :
    n.widthAcross near = n.cutRoom near := by
  unfold widthAcross cutRoom
  rw [WithTop.coe_sum]
  refine Finset.sum_congr rfl fun u hu => ?_
  rw [WithTop.coe_sum]
  refine Finset.sum_congr rfl fun v hv => ?_
  obtain ⟨hvv, hvn⟩ := Finset.mem_sdiff.mp hv
  have huv : u ≠ v := by
    rintro rfl
    exact hvn hu
  exact (coe_room hcap huv (h u hu v (List.mem_toFinset.mp hvv) hvn)).symm

theorem widthAcross_eq_top (h : ¬ n.Tight near) :
    n.widthAcross near = ⊤ ∧ n.plenty ≤ n.cutRoom near := by
  unfold Tight at h
  push Not at h
  obtain ⟨u, hu, v, hv, hvn, hlink⟩ := h
  have huv : u ≠ v := by
    rintro rfl
    exact hvn hu
  have hfar : v ∈ n.vertices.toFinset \ near :=
    Finset.mem_sdiff.mpr ⟨List.mem_toFinset.mpr hv, hvn⟩
  constructor
  · refine WithTop.sum_eq_top.mpr ⟨u, hu, WithTop.sum_eq_top.mpr ⟨v, hfar, ?_⟩⟩
    rw [width, hlink]
    rfl
  · have hroom : n.room u v = n.plenty := by
      rw [room, if_neg huv, hlink]
      rfl
    exact hroom ▸ room_le_cutRoom hu hv hvn

theorem Tight.cutRoom_le_total (h : n.Tight near) (hv : n.Valid)
    (hn : near ⊆ n.vertices.toFinset) :
    n.cutRoom near ≤ (n.openArcs.filterMap Arc.bound?).sum := by
  rw [cutRoom, ← Finset.sum_product (f := fun e => n.room e.1 e.2)]
  refine hv.sum_pairs_le_total (fun e he => ?_) fun e he => ?_
  · exact List.mem_toFinset.mp (hn (Finset.mem_product.mp he).1)
  · obtain ⟨hu, hfar⟩ := Finset.mem_product.mp he
    obtain ⟨hvv, hvn⟩ := Finset.mem_sdiff.mp hfar
    exact h _ hu _ (List.mem_toFinset.mp hvv) hvn

open Classical in
theorem exists_tight (hs : s ∈ n.vertices)
    (hno : ¬ Relation.ReflTransGen (fun u v => n.link? u v = some none) s t) :
    ∃ near ⊆ n.vertices.toFinset, s ∈ near ∧ t ∉ near ∧ n.Tight near := by
  refine ⟨n.vertices.toFinset.filter
    (Relation.ReflTransGen (fun u v => n.link? u v = some none) s), Finset.filter_subset _ _,
    ?_, ?_, ?_⟩
  · exact Finset.mem_filter.mpr ⟨List.mem_toFinset.mpr hs, .refl⟩
  · intro ht
    exact hno (Finset.mem_filter.mp ht).2
  · intro u hu v hv hvn hlink
    refine hvn (Finset.mem_filter.mpr ⟨List.mem_toFinset.mpr hv, ?_⟩)
    exact (Finset.mem_filter.mp hu).2.tail hlink

theorem Carries.lt_plenty (h : n.Carries s t f) (hv : n.Valid) (hs : s ∈ n.vertices)
    (hno : ¬ Relation.ReflTransGen (fun u v => n.link? u v = some none) s t) :
    f.value < n.plenty := by
  obtain ⟨near, hn, hsn, htn, htight⟩ := exists_tight hs hno
  calc f.value ≤ n.cutRoom near := h.value_le hn hsn htn
    _ ≤ (n.openArcs.filterMap Arc.bound?).sum := htight.cutRoom_le_total hv hn
    _ < n.plenty := n.total_lt_plenty

theorem Tight.not_path (h : n.Tight near) (hv : n.Valid) (hs : s ∈ near) (ht : t ∉ near) :
    ¬ Relation.ReflTransGen (fun u v => n.link? u v = some none) s t := by
  intro hpath
  refine ht ?_
  clear ht
  induction hpath with
  | refl => exact hs
  | tail _ hlink ih =>
    by_contra hvn
    exact h _ ih _ (mem_of_link? hv hlink).2 hvn hlink

theorem Carries.full (h : n.Carries s t f) (hn : near ⊆ n.vertices.toFinset) (hs : s ∈ near)
    (ht : t ∉ near) (hle : n.cutRoom near ≤ f.value) (hu : u ∈ near) (hv : v ∈ n.vertices)
    (hvn : v ∉ near) : n.room u v ≤ n.sent f u v := by
  have hpair : (u, v) ∈ near ×ˢ (n.vertices.toFinset \ near) :=
    Finset.mem_product.mpr ⟨hu, Finset.mem_sdiff.mpr ⟨List.mem_toFinset.mpr hv, hvn⟩⟩
  have hwithin : ∀ e ∈ near ×ˢ (n.vertices.toFinset \ near),
      n.sent f e.1 e.2 ≤ n.room e.1 e.2 := by
    intro e he
    obtain ⟨heu, hfar⟩ := Finset.mem_product.mp he
    exact h.within _ (List.mem_toFinset.mp (hn heu)) _
      (List.mem_toFinset.mp (Finset.mem_sdiff.mp hfar).1)
  rw [h.value_eq hn hs ht, cutRoom, ← Finset.sum_product (f := fun e => n.room e.1 e.2),
    ← Finset.sum_product (f := fun e => n.sent f e.1 e.2)] at hle
  by_contra hlt
  exact (Finset.sum_lt_sum hwithin ⟨(u, v), hpair, not_le.mp hlt⟩).not_ge hle

theorem Carries.reachable_subset (h : n.Carries s t f) (hv : n.Valid)
    (hn : near ⊆ n.vertices.toFinset) (hs : s ∈ near) (ht : t ∉ near)
    (hle : n.cutRoom near ≤ f.value) :
    (n.reachable f 0 (n.place s)).toFinset ⊆ near := by
  intro v hvr
  rw [List.mem_toFinset, h.mem_reachable hv le_rfl (List.mem_toFinset.mp (hn hs))] at hvr
  obtain ⟨-, hsv⟩ := hvr
  induction hsv with
  | refl => exact hs
  | tail _ hstep ih =>
    obtain ⟨-, hw, hroom⟩ := hstep
    by_contra hwn
    have := h.full hn hs ht hle ih hw hwn
    linarith

theorem Maximum.value_eq (h : n.Maximum s t f) (h' : n.Maximum s t g) : f.value = g.value :=
  le_antisymm (h'.2 f h.1) (h.2 g h'.1)

theorem Valid.reachable_congr (h : n.Valid) {i : Nat}
    (hsame : ∀ v, v ∈ n.reachable f tolerance i ↔ v ∈ n.reachable g tolerance i) :
    n.reachable f tolerance i = n.reachable g tolerance i := by
  have hsub (f : Flow K) : (n.reachable f tolerance i).Sublist n.vertices := by
    have hmap := (List.filter_sublist (l := n.vertices.zipIdx) (p := fun e => e.2 ∈
      reach ((adjacency n.vertices.length (n.ways f tolerance)).getD · [])
        n.vertices.length i)).map Prod.fst
    rwa [List.zipIdx_map_fst] at hmap
  rw [eq_filter_of_sublist (hsub f) h.nodup, eq_filter_of_sublist (hsub g) h.nodup]
  exact List.filter_congr fun v _ => decide_eq_decide.mpr (hsame v)

/-- The source reaches the same vertices whatever maximum flow was found. -/
theorem Maximum.reachable_eq (h : n.Maximum s t f) (h' : n.Maximum s t g) (hv : n.Valid)
    (hst : s ≠ t) (hs : s ∈ n.vertices) :
    n.reachable f 0 (n.place s) = n.reachable g 0 (n.place s) := by
  have hsub {f g : Flow K} (h : n.Maximum s t f) (h' : n.Maximum s t g) :
      (n.reachable f 0 (n.place s)).toFinset ⊆ (n.reachable g 0 (n.place s)).toFinset := by
    obtain ⟨hn, hsn, htn, hle⟩ := h'.cutRoom_le hv hst hs le_rfl
    rw [zero_mul, add_zero, h'.value_eq h] at hle
    exact h.1.reachable_subset hv hn hsn htn hle
  refine hv.reachable_congr fun v => ?_
  rw [← List.mem_toFinset, ← List.mem_toFinset, (hsub h h').antisymm (hsub h' h)]

theorem minCut_eq {find : FlowFinder V K} (hv : n.Valid) (hs : s ∈ n.vertices)
    (ht : t ∈ n.vertices) (hst : s ≠ t)
    (hno : ¬ Relation.ReflTransGen (fun u v => n.link? u v = some none) s t) :
    n.minCut find tolerance s t = .ok
      { value := (find n (n.place s) (n.place t)).value
        reachable := n.reachable (find n (n.place s) (n.place t)) tolerance (n.place s) } := by
  have hjoin : ¬ n.joinsUnbounded (n.place s) (n.place t) = true :=
    fun hjoin => hno (hv.unbounded_path hs ht hjoin)
  unfold minCut
  rw [if_neg hst, if_neg (not_not.mpr hs), if_neg (not_not.mpr ht)]
  simp only [if_neg hjoin]

/-- Between different vertices that no path of unbounded arcs joins, a cut is found. Its near side
holds the source and not the sink. The room across it, with unbounded arcs at the bound that they
are given, is at most the value and the tolerance for each pair that an arc joins across it, and so
is its capacity, unless an unbounded arc leaves it; for that the tolerance has to make up the
difference between the value and three times all finite capacity. Without a tolerance it is a
minimum cut that lies within all others, and the same for every maximum flow. -/
theorem minCut_least (find : FlowFinder V K) (hv : n.Valid)
    (hcap : ∀ a ∈ n.arcs, ∀ c ∈ a.capacity, 0 ≤ c) (hs : s ∈ n.vertices) (ht : t ∈ n.vertices)
    (hst : s ≠ t) (hno : ¬ Relation.ReflTransGen (fun u v => n.link? u v = some none) s t)
    (htol : 0 ≤ tolerance) (hmax : n.Maximum s t (find n (n.place s) (n.place t))) :
    ∃ c, n.minCut find tolerance s t = .ok c ∧
      c.reachable.toFinset ⊆ n.vertices.toFinset ∧ s ∈ c.reachable ∧ t ∉ c.reachable ∧
      n.cutRoom c.reachable.toFinset ≤
        c.value + tolerance * (n.gates c.reachable.toFinset).card ∧
      (n.widthAcross c.reachable.toFinset ≤
          ↑(c.value + tolerance * (n.gates c.reachable.toFinset).card) ∨
        ¬ n.Tight c.reachable.toFinset ∧
          n.plenty ≤ c.value + tolerance * (n.gates c.reachable.toFinset).card) ∧
      (tolerance = 0 →
        n.widthAcross c.reachable.toFinset = c.value ∧
        (∀ near ⊆ n.vertices.toFinset, s ∈ near → t ∉ near →
          n.widthAcross c.reachable.toFinset ≤ n.widthAcross near ∧
          (n.widthAcross near = n.widthAcross c.reachable.toFinset →
            c.reachable.toFinset ⊆ near)) ∧
        ∀ find' : FlowFinder V K, n.Maximum s t (find' n (n.place s) (n.place t)) →
          n.minCut find' tolerance s t = .ok c) := by
  let f := find n (n.place s) (n.place t)
  obtain ⟨hn, hsn, htn, hjoints⟩ := hmax.cutRoom_le hv hst hs htol
  let side := (n.reachable f tolerance (n.place s)).toFinset
  have hcards : ((n.joints side).card : K) ≤ (n.gates side).card :=
    Nat.cast_le.mpr (Finset.card_le_card (n.joints_subset_gates side))
  have hroom : n.cutRoom side ≤ f.value + tolerance * (n.gates side).card := by
    have := mul_le_mul_of_nonneg_left hcards htol
    linarith
  refine ⟨_, minCut_eq hv hs ht hst hno, hn, List.mem_toFinset.mp hsn,
    fun hmem => htn (List.mem_toFinset.mpr hmem), hroom, ?_, ?_⟩
  · by_cases htight : n.Tight side
    · left
      rw [htight.widthAcross_eq hcap, WithTop.coe_le_coe]
      exact hroom
    · exact .inr ⟨htight, (widthAcross_eq_top htight).2.trans hroom⟩
  · rintro rfl
    rw [zero_mul, add_zero] at hjoints
    have htight : n.Tight side := by
      by_contra htight
      exact (hmax.1.lt_plenty hv hs hno).not_ge ((widthAcross_eq_top htight).2.trans hjoints)
    have hwidth : n.widthAcross side = f.value := by
      rw [htight.widthAcross_eq hcap, WithTop.coe_inj]
      exact le_antisymm hjoints (hmax.1.value_le hn hsn htn)
    refine ⟨hwidth, fun near hnear hsn htn => ?_, fun find' hmax' => ?_⟩
    · rw [show n.widthAcross _ = f.value from hwidth]
      by_cases hnt : n.Tight near
      · rw [hnt.widthAcross_eq hcap, WithTop.coe_le_coe, WithTop.coe_inj]
        exact ⟨hmax.1.value_le hnear hsn htn, fun heq =>
          hmax.1.reachable_subset hv hnear hsn htn heq.le⟩
      · rw [(widthAcross_eq_top hnt).1]
        exact ⟨le_top, fun heq => absurd heq WithTop.top_ne_coe⟩
    · rw [minCut_eq hv hs ht hst hno, hmax'.value_eq hmax, hmax'.reachable_eq hmax hv hst hs]

def outlet : Network Nat ℚ where
  vertices := [0, 1, 2]
  arcs := [⟨0, 1, none⟩, ⟨1, 2, some 1⟩]

def course (places : List Nat) : Flow ℚ where
  value := 1
  net i j := ((places.zip places.tail).map fun e => unit e.1 e.2 i j).sum

instance (near : Finset V) : Decidable (n.Tight near) :=
  inferInstanceAs (Decidable (∀ u ∈ near, ∀ v ∈ n.vertices, v ∉ near → n.link? u v ≠ some none))

/-- A tolerance above what unbounded arcs are reckoned with leaves them across the cut. -/
theorem outlet_left_open :
    outlet.Valid ∧ (∀ a ∈ outlet.arcs, ∀ c ∈ a.capacity, 0 ≤ c) ∧
      ¬ Relation.ReflTransGen (fun u v => outlet.link? u v = some none) 0 2 ∧
      outlet.Maximum 0 2 (course [0, 1, 2]) ∧
      ∃ c, outlet.minCut (fun _ _ _ => course [0, 1, 2]) 5 0 2 = .ok c ∧
        ¬ outlet.widthAcross c.reachable.toFinset ≤
          ↑(c.value + 5 * (outlet.gates c.reachable.toFinset).card) := by
  have hv : outlet.Valid := ⟨by decide, by decide, by decide⟩
  have htight : outlet.Tight {0, 1} := by decide +kernel
  have hno : ¬ Relation.ReflTransGen (fun u v => outlet.link? u v = some none) 0 2 :=
    htight.not_path hv (by decide) (by decide)
  have hfull : (course [0, 1, 2]).value = outlet.cutRoom {0, 1} := by decide +kernel
  have hmax : outlet.Maximum 0 2 (course [0, 1, 2]) :=
    Carries.maximum (by decide +kernel) (by decide) (by decide) (by decide) hfull
  have hreach : outlet.reachable (course [0, 1, 2]) 5 (outlet.place 0) = [0] := by decide +kernel
  have hopen : ¬ outlet.Tight [0].toFinset := by decide +kernel
  refine ⟨hv, by decide +kernel, hno, hmax, _,
    minCut_eq hv (by decide) (by decide) (by decide) hno, ?_⟩
  rw [hreach, (widthAcross_eq_top hopen).1]
  exact not_le.mpr (WithTop.coe_lt_top _)

def fork : Network Nat ℚ where
  vertices := [0, 1, 2, 3, 4]
  arcs := [⟨0, 1, none⟩, ⟨0, 2, none⟩, ⟨1, 3, some 1⟩, ⟨2, 3, some 1⟩, ⟨3, 4, some 1⟩]

theorem fork_cut :
    ∃ c, fork.minCut (fun _ _ _ => course [0, 1, 3, 4]) 0 0 4 = .ok c ∧
      fork.minCut (fun _ _ _ => course [0, 2, 3, 4]) 0 0 4 = .ok c ∧
      fork.widthAcross c.reachable.toFinset = c.value ∧ c.reachable.toFinset ⊆ {0, 1, 2, 3} := by
  have hv : fork.Valid := ⟨by decide, by decide, by decide⟩
  have htight : fork.Tight {0, 1, 2, 3} := by decide +kernel
  have hno : ¬ Relation.ReflTransGen (fun u v => fork.link? u v = some none) 0 4 :=
    htight.not_path hv (by decide) (by decide)
  have hroom : 1 = fork.cutRoom {0, 1, 2, 3} := by decide +kernel
  have hmax : fork.Maximum 0 4 (course [0, 1, 3, 4]) :=
    Carries.maximum (by decide +kernel) (by decide) (by decide) (by decide) hroom
  have hmax' : fork.Maximum 0 4 (course [0, 2, 3, 4]) :=
    Carries.maximum (by decide +kernel) (by decide) (by decide) (by decide) hroom
  obtain ⟨c, hcut, -, -, -, -, -, hleast⟩ :=
    minCut_least (fun _ _ _ => course [0, 1, 3, 4]) hv (by decide +kernel) (by decide)
      (by decide) (by decide) hno le_rfl hmax
  obtain ⟨hwidth, hall, hsame⟩ := hleast rfl
  refine ⟨c, hcut, hsame (fun _ _ _ => course [0, 2, 3, 4]) hmax', hwidth, ?_⟩
  refine (hall {0, 1, 2, 3} (by decide) (by decide) (by decide)).2 ?_
  have hvalue : c.value = 1 := by
    rw [minCut_eq hv (by decide) (by decide) (by decide) hno] at hcut
    exact (congrArg Cut.value (Except.ok.inj hcut)).symm
  rw [hwidth, hvalue, htight.widthAcross_eq (by decide +kernel), ← hroom]

end LPRounding.Network
