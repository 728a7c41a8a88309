import LPRounding.Proofs.Exact
import LPRounding.Proofs.Graph.Joined
import LPRounding.Graph.Forest

/-!
Spanning forests. Picking edges in order leaves no cycle and joins all that the edges join; where
heavier edges come first, no other such choice is heavier. Whatever separates the ends of an edge
separates those of an edge of a maximum forest at least as heavy, or that one could be exchanged.
-/

namespace LPRounding

set_option linter.unusedSectionVars false

namespace Weighted

variable {V K : Type} [DecidableEq V] [Field K] [LinearOrder K] [IsStrictOrderedRing K]
  [FloorRing K]

def ends (e : Weighted V K) : V × V := (e.u, e.v)

def weigh (es : List (Weighted V K)) : K := (es.map Weighted.weight).sum

/-- Some of the edges that close no cycle, together with given pairs, and join all that the edges
join. -/
structure Forest (pairs : List (V × V)) (es fs : List (Weighted V K)) : Prop where
  among : fs.Subperm es
  acyclic : Acyclic (fs.map ends ++ pairs)
  spans : ∀ e ∈ es, Joined (fs.map ends ++ pairs) e.u e.v

/-- No forest is heavier. -/
structure MaximumForest (pairs : List (V × V)) (es fs : List (Weighted V K)) : Prop
    extends Forest pairs es fs where
  heaviest : ∀ gs, Forest pairs es gs → weigh gs ≤ weigh fs

variable {parts : List (List V)} {pairs : List (V × V)} {es fs gs : List (Weighted V K)}
  {a e : Weighted V K}

theorem weigh_perm (h : fs.Perm gs) : weigh fs = weigh gs := (h.map _).sum_eq

theorem weigh_cons (a : Weighted V K) (es : List (Weighted V K)) :
    weigh (a :: es) = a.weight + weigh es := List.sum_cons

theorem joined_ends (h : a ∈ fs) : Joined (fs.map ends ++ pairs) a.u a.v :=
  .single (.inl (List.mem_append_left _ (List.mem_map_of_mem (f := ends) h)))

theorem subperm_of_notMem (h : fs.Subperm (a :: es)) (hn : a ∉ fs) : fs.Subperm es := by
  classical
  simpa [List.erase_of_not_mem hn] using h.erase a

theorem forest_cons : Forest pairs (a :: es) (a :: fs) ↔ Forest (ends a :: pairs) es fs := by
  have hp : ((a :: fs).map ends ++ pairs).Perm (fs.map ends ++ ends a :: pairs) :=
    List.perm_middle.symm
  constructor
  · rintro ⟨hamong, hacyclic, hspans⟩
    exact ⟨List.subperm_cons _ |>.mp hamong, hacyclic.perm hp,
      fun e he => (hspans e (List.mem_cons_of_mem _ he)).perm hp⟩
  · rintro ⟨hamong, hacyclic, hspans⟩
    refine ⟨List.subperm_cons _ |>.mpr hamong, hacyclic.perm hp.symm, fun e he => ?_⟩
    rcases List.mem_cons.mp he with rfl | he
    · exact joined_ends List.mem_cons_self
    · exact (hspans e he).perm hp.symm

theorem Forest.replace (h : Forest pairs es fs) (hp : fs.Perm (a :: gs)) (he : e ∈ es)
    (hn : ¬ Joined (gs.map ends ++ pairs) e.u e.v) : Forest pairs es (e :: gs) := by
  have hpe : (fs.map ends ++ pairs).Perm (ends a :: (gs.map ends ++ pairs)) :=
    (hp.map ends).append_right pairs
  have hsub : gs.Subperm es := ((List.sublist_cons_self a gs).subperm.trans hp.symm.subperm).trans
    h.among
  refine ⟨?_, acyclic_cons.mpr ⟨(h.acyclic.perm hpe).of_cons, hn⟩, fun d hd => ?_⟩
  · exact List.cons_subperm_of_not_mem_of_mem (fun hm => hn (joined_ends hm)) he hsub
  · have huv : Joined (ends a :: (gs.map ends ++ pairs)) e.u e.v := (h.spans e he).perm hpe
    exact ((h.spans d hd).perm hpe).of_cons (List.subset_cons_self _ _) (huv.exchange hn)

theorem MaximumForest.exists_heavy (h : MaximumForest [] es fs) (he : e ∈ es) {side : V → Bool}
    (hside : side e.u ≠ side e.v) :
    ∃ a ∈ fs, e.weight ≤ a.weight ∧ side a.u ≠ side a.v := by
  let cross (a : Weighted V K) : Bool := side a.u != side a.v
  let keep := fs.filter fun a => !cross a
  have hp : fs.Perm (fs.filter cross ++ keep) := (List.filter_append_perm cross fs).symm
  have hpe : (fs.map ends ++ []).Perm ((fs.filter cross).map ends ++ keep.map ends) := by
    simpa using hp.map ends
  -- the edges of the forest that stay on one side do not join the two ends
  have hkeep : ¬ Joined (keep.map ends) e.u e.v := by
    intro hj
    obtain ⟨_, hm, hcross⟩ := hj.exists_crossing hside
    obtain ⟨a, ha, rfl⟩ := List.mem_map.mp hm
    simp [cross, ends, keep] at ha hcross
    exact hcross ha.2
  obtain ⟨a, rest, hrest, hn⟩ :=
    (h.acyclic.perm hpe).exists_needed ((h.spans e he).perm hpe) hkeep
  have hac : a ∈ fs.filter cross := hrest.mem_iff.mpr List.mem_cons_self
  have hpa : fs.Perm (a :: (rest ++ keep)) := hp.trans (hrest.append_right keep)
  have hforest := h.replace hpa he (by simpa using hn)
  have hle := h.heaviest _ hforest
  rw [weigh_perm hpa, weigh_cons, weigh_cons] at hle
  obtain ⟨ha, hcross⟩ := List.mem_filter.mp hac
  exact ⟨a, ha, le_of_add_le_add_right hle, by simpa [cross] using hcross⟩

/-- What the pairs join is one part, and no part holds more. -/
structure Splits (parts : List (List V)) (pairs : List (V × V)) : Prop where
  within : ∀ part ∈ parts, ∀ x ∈ part, ∀ y ∈ part, Joined pairs x y
  whole : ∀ part ∈ parts, ∀ x ∈ part, ∀ y, Joined pairs x y → y ∈ part
  covers : ∀ x y, Joined pairs x y → x ≠ y → ∃ part ∈ parts, x ∈ part

theorem splits_nil : Splits ([] : List (List V)) [] :=
  ⟨by simp, by simp, fun _ _ h hne => absurd (joined_nil.mp h) hne⟩

theorem Splits.mem_partOf (h : Splits parts pairs) {x y : V} :
    y ∈ partOf parts x ↔ Joined pairs x y := by
  unfold partOf
  cases hf : parts.find? (x ∈ ·) with
  | none =>
    rw [Option.getD_none, List.mem_singleton]
    refine ⟨fun hy => hy ▸ .refl, fun hj => ?_⟩
    by_contra hne
    obtain ⟨part, hp, hx⟩ := h.covers x y hj (Ne.symm hne)
    exact List.find?_eq_none.mp hf part hp (by simpa using hx)
  | some part =>
    rw [Option.getD_some]
    have hp := List.mem_of_find?_eq_some hf
    have hx : x ∈ part := by simpa using List.find?_some hf
    exact ⟨h.within part hp x hx y, h.whole part hp x hx y⟩

theorem Splits.join (h : Splits parts pairs) (u v : V) :
    Splits (join parts u v) ((u, v) :: pairs) := by
  have hsub : pairs ⊆ (u, v) :: pairs := List.subset_cons_self _ _
  have huv : Joined ((u, v) :: pairs) u v := .single (.inl List.mem_cons_self)
  have hmem {z : V} : z ∈ partOf parts u ++ partOf parts v ↔ Joined pairs u z ∨ Joined pairs v z := by
    rw [List.mem_append, h.mem_partOf, h.mem_partOf]
  have hnew {z : V} : z ∈ partOf parts u ++ partOf parts v ↔ Joined ((u, v) :: pairs) u z := by
    rw [hmem, joined_cons]
    constructor
    · rintro (hz | hz)
      · exact .inl hz
      · exact .inr (.inl ⟨.refl, hz⟩)
    · rintro (hz | ⟨-, hz⟩ | ⟨-, hz⟩)
      · exact .inl hz
      · exact .inr hz
      · exact .inl hz
  refine ⟨fun part hp x hx y hy => ?_, fun part hp x hx y hj => ?_, fun x y hj hne => ?_⟩
  · rcases List.mem_cons.mp hp with rfl | hp
    · exact (hnew.mp hx).symm.trans (hnew.mp hy)
    · exact (h.within part (List.mem_of_mem_filter hp) x hx y hy).mono hsub
  · rcases List.mem_cons.mp hp with rfl | hp
    · exact hnew.mpr ((hnew.mp hx).trans hj)
    · obtain ⟨hp, hout⟩ := List.mem_filter.mp hp
      have hu : u ∉ part ∧ v ∉ part := by simpa using hout
      rcases joined_cons.mp hj with hj | ⟨hxu, -⟩ | ⟨hxv, -⟩
      · exact h.whole part hp x hx y hj
      · exact absurd (h.whole part hp x hx u hxu) hu.1
      · exact absurd (h.whole part hp x hx v hxv) hu.2
  · by_cases hx : x ∈ partOf parts u ++ partOf parts v
    · exact ⟨_, List.mem_cons_self, hx⟩
    have hx : ¬ Joined pairs u x ∧ ¬ Joined pairs v x := not_or.mp (hmem.not.mp hx)
    rcases joined_cons.mp hj with hj | ⟨hxu, -⟩ | ⟨hxv, -⟩
    · obtain ⟨part, hp, hxp⟩ := h.covers x y hj hne
      refine ⟨part, List.mem_cons_of_mem _ (List.mem_filter.mpr ⟨hp, ?_⟩), hxp⟩
      have hu : u ∉ part := fun hu => hx.1 (h.within part hp u hu x hxp)
      have hv : v ∉ part := fun hv => hx.2 (h.within part hp v hv x hxp)
      simp [hu, hv]
    · exact absurd hxu.symm hx.1
    · exact absurd hxv.symm hx.2

theorem mem_of_mem_pick (h : e ∈ pick parts es) : e ∈ es := by
  induction es generalizing parts with
  | nil => exact h
  | cons a rest ih =>
    rw [pick] at h
    split at h
    · exact List.mem_cons_of_mem _ (ih h)
    · rcases List.mem_cons.mp h with rfl | h
      · exact List.mem_cons_self
      · exact List.mem_cons_of_mem _ (ih h)

theorem forest_pick (h : Splits parts pairs) (hp : Acyclic pairs) (es : List (Weighted V K)) :
    Forest pairs es (pick parts es) := by
  induction es generalizing parts pairs with
  | nil => exact ⟨List.nil_subperm, hp, by simp⟩
  | cons a rest ih =>
    rw [pick]
    split
    · next hin =>
      obtain ⟨hamong, hacyclic, hspans⟩ := ih h hp
      refine ⟨hamong.trans (List.sublist_cons_self _ _).subperm, hacyclic, ?_⟩
      refine List.forall_mem_cons.mpr ⟨?_, hspans⟩
      exact (h.mem_partOf.mp hin).mono (List.subset_append_right _ _)
    · next hout =>
      exact forest_cons.mpr (ih (h.join a.u a.v)
        (acyclic_cons.mpr ⟨hp, h.mem_partOf.not.mp hout⟩))

theorem weigh_le_pick (h : Splits parts pairs)
    (hs : es.Pairwise fun a b => b.weight ≤ a.weight) (hg : Forest pairs es gs) :
    weigh gs ≤ weigh (pick parts es) := by
  induction es generalizing parts pairs gs with
  | nil =>
    rw [List.subperm_nil.mp hg.among]
    exact le_rfl
  | cons a rest ih =>
    obtain ⟨ha, hs⟩ := List.pairwise_cons.mp hs
    obtain ⟨hamong, hacyclic, hspans⟩ := id hg
    rw [pick]
    split
    · next hin =>
      have hj : Joined pairs a.u a.v := h.mem_partOf.mp hin
      -- the edge would close a cycle, so no forest has it
      have hno : a ∉ gs := by
        intro hm
        obtain ⟨before, after, rfl⟩ := List.append_of_mem hm
        have hmid : ((before ++ a :: after).map ends ++ pairs).Perm
            (ends a :: ((before ++ after).map ends ++ pairs)) :=
          (List.perm_middle.map ends).append_right pairs
        exact (acyclic_cons.mp (hacyclic.perm hmid)).2 (hj.mono (List.subset_append_right _ _))
      exact ih h hs ⟨subperm_of_notMem hamong hno, hacyclic,
        fun e he => hspans e (List.mem_cons_of_mem _ he)⟩
    · next hout =>
      have hout : ¬ Joined pairs a.u a.v := h.mem_partOf.not.mp hout
      -- the edge can take the place of one that is no heavier
      obtain ⟨b, rest', hp, hn⟩ :=
        hacyclic.exists_needed (hspans a List.mem_cons_self) hout
      have hle := ih (h.join a.u a.v) hs
        (forest_cons.mp (hg.replace hp List.mem_cons_self hn))
      have hb : b.weight ≤ a.weight := by
        rcases List.mem_cons.mp (hamong.subset (hp.mem_iff.mpr List.mem_cons_self)) with rfl | hb
        · exact le_rfl
        · exact ha b hb
      rw [weigh_perm hp, weigh_cons, weigh_cons]
      exact add_le_add hb hle

/-- What is picked heaviest first is a maximum spanning forest. -/
theorem maximum_maximumForest (es : List (Weighted V K)) :
    MaximumForest [] es (maximumForest es) := by
  let sorted := es.mergeSort fun a b => !(a.weight < b.weight)
  have hp : sorted.Perm es := List.mergeSort_perm es _
  have hsorted : sorted.Pairwise fun a b => b.weight ≤ a.weight := by
    refine (List.pairwise_mergeSort ?_ ?_ es).imp fun {a b} hab => by simpa using hab
    · intro a b c hab hbc
      simp only [Bool.not_eq_true', decide_eq_false_iff_not, not_lt] at hab hbc ⊢
      exact hbc.trans hab
    · intro a b
      simpa using le_total b.weight a.weight
  have hperm {xs ys : List (Weighted V K)} (hxy : xs.Perm ys) {gs : List (Weighted V K)}
      (hg : Forest [] xs gs) : Forest [] ys gs :=
    ⟨hg.among.trans hxy.subperm, hg.acyclic, fun e he => hg.spans e (hxy.mem_iff.mpr he)⟩
  exact ⟨hperm hp (forest_pick splits_nil acyclic_nil sorted),
    fun gs hg => weigh_le_pick splits_nil hsorted (hperm hp.symm hg)⟩

theorem minimumForest_eq_ite (es : List (Weighted V K)) : minimumForest es =
    if es.Pairwise fun a b => !(b.weight < a.weight) then pick [] es else minimumForest es := by
  split
  · next h => rw [minimumForest, List.mergeSort_of_pairwise h]
  · rfl

theorem mem_of_mem_minimumForest (h : e ∈ minimumForest es) : e ∈ es :=
  (List.mergeSort_perm es _).mem_iff.mp (mem_of_mem_pick h)

def turned (e : Weighted V K) : Weighted V K := { e with weight := -e.weight }

theorem map_ends_turned (es : List (Weighted V K)) : (es.map turned).map ends = es.map ends := by
  rw [List.map_map]
  rfl

theorem map_turned_turned (es : List (Weighted V K)) : (es.map turned).map turned = es := by
  rw [List.map_map]
  exact (List.map_congr_left fun e _ => by simp [turned]).trans (List.map_id es)

theorem weigh_turned (es : List (Weighted V K)) : weigh (es.map turned) = -weigh es := by
  induction es with
  | nil => exact neg_zero.symm
  | cons e es ih =>
    rw [List.map_cons, weigh_cons, weigh_cons, ih, neg_add]
    rfl

theorem pick_turned (parts : List (List V)) (es : List (Weighted V K)) :
    pick parts (es.map turned) = (pick parts es).map turned := by
  induction es generalizing parts with
  | nil => rfl
  | cons e es ih =>
    rw [List.map_cons, pick, pick, ih, ih, apply_ite (List.map turned)]
    rfl

theorem Forest.turn (h : Forest pairs es fs) : Forest pairs (es.map turned) (fs.map turned) := by
  refine ⟨?_, ?_, fun e he => ?_⟩
  · obtain ⟨among, hperm, hsub⟩ := h.among
    exact ⟨among.map turned, hperm.map turned, hsub.map turned⟩
  · rw [map_ends_turned]
    exact h.acyclic
  · obtain ⟨a, ha, rfl⟩ := List.mem_map.mp he
    rw [map_ends_turned]
    exact h.spans a ha

theorem maximumForest_turned (es : List (Weighted V K)) :
    maximumForest (es.map turned) = (minimumForest es).map turned := by
  rw [maximumForest, minimumForest, ← pick_turned]
  refine congrArg _ (List.map_mergeSort fun a _ b _ => ?_).symm
  simp [turned]

/-- What is picked lightest first is a spanning forest, and no other one is lighter. -/
theorem forest_minimumForest (es : List (Weighted V K)) :
    Forest [] es (minimumForest es) ∧
      ∀ gs, Forest [] es gs → weigh (minimumForest es) ≤ weigh gs := by
  have h := maximum_maximumForest (es.map turned)
  rw [maximumForest_turned] at h
  constructor
  · have hturn := h.toForest.turn
    rwa [map_turned_turned, map_turned_turned] at hturn
  · intro gs hg
    have hle := h.heaviest _ hg.turn
    rw [weigh_turned, weigh_turned] at hle
    exact neg_le_neg_iff.mp hle

theorem weigh_minimumForest_le {vs : List V} (hes : ∀ e ∈ es, e.u ∈ vs ∧ e.v ∈ vs)
    (hconn : Connected vs (gs.map ends)) (hsub : gs ⊆ es) (h0 : ∀ e ∈ gs, 0 ≤ e.weight) :
    weigh (minimumForest es) ≤ weigh gs := by
  obtain ⟨ts, hts, hconn, hacyclic⟩ := hconn.exists_acyclic
  have hforest : Forest [] es ts := by
    refine ⟨hacyclic.nodup.of_map.subperm (List.Subset.trans hts.subset hsub), ?_, fun e he => ?_⟩
    · simpa using hacyclic
    · simpa using hconn e.u (hes e he).1 e.v (hes e he).2
  have hweights : ∀ w ∈ gs.map weight, 0 ≤ w := by
    intro w hw
    obtain ⟨e, he, rfl⟩ := List.mem_map.mp hw
    exact h0 e he
  calc weigh (minimumForest es) ≤ weigh ts := (forest_minimumForest es).2 ts hforest
    _ ≤ weigh gs := (hts.map weight).sum_le_sum hweights

end Weighted

end LPRounding
