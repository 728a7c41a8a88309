import Mathlib
import LPRounding.Proofs.LP.Polyhedron

/-!
Nested sets of vertices and the fractions of edges across them. An edge hands a fraction to the
smallest set around each of its ends and the rest to the smallest set around both; as every set gets
a whole number of edges in the end, there are fewer sets than edges, and the sets do not tell the
fractions.
-/

namespace LPRounding

set_option linter.unusedSectionVars false

variable {V α ι K : Type} [DecidableEq V]

def Crosses (set : Finset V) (a b : V) : Prop := ¬ (a ∈ set ↔ b ∈ set)

instance (set : Finset V) (a b : V) : Decidable (Crosses set a b) :=
  inferInstanceAs (Decidable (¬ _))

/-- Of any two sets one holds the other, or they have nothing in common. -/
def Laminar (side : ι → Finset V) (sets : Finset ι) : Prop :=
  ∀ i ∈ sets, ∀ j ∈ sets, i ≠ j →
    side i ⊆ side j ∨ side j ⊆ side i ∨ Disjoint (side i) (side j)

def holding (part set : Finset V) : Nat := if part ⊆ set then 1 else 0

theorem sum_holding_le [DecidableEq ι] {side : ι → Finset V} {parts : Finset ι}
    {part set : Finset V}
    (hp : part.Nonempty) (hdis : (parts : Set ι).PairwiseDisjoint side)
    (hsub : ∀ i ∈ parts, side i ⊆ set) : ∑ i ∈ parts, holding part (side i) ≤ holding part set := by
  by_cases hnone : ∃ i ∈ parts, part ⊆ side i
  · obtain ⟨i, hi, hpi⟩ := hnone
    obtain ⟨a, ha⟩ := hp
    have hsingle : ∑ j ∈ parts, holding part (side j) = holding part (side i) := by
      refine Finset.sum_eq_single_of_mem i hi fun j hj hne => if_neg fun hpj => ?_
      exact Finset.disjoint_left.mp (hdis hj hi hne) (hpj ha) (hpi ha)
    rw [hsingle, holding, if_pos hpi, holding, if_pos (hpi.trans (hsub i hi))]
  · have hzero : ∑ i ∈ parts, holding part (side i) = 0 :=
      Finset.sum_eq_zero fun i hi => if_neg fun hpi => hnone ⟨i, hi, hpi⟩
    omega

theorem Laminar.exists_outermost [DecidableEq ι] {R : Type} [Ring R] [LinearOrder R]
    [IsStrictOrderedRing R] {side : ι → Finset V} {sets : Finset ι} (hlam : Laminar side sets)
    {w : ι → R}
    (hw : ∀ i ∈ sets, ∀ parts ⊆ sets, i ∉ parts → (parts : Set ι).PairwiseDisjoint side →
      (∀ j ∈ parts, side j ⊆ side i) → ∑ j ∈ parts, w j + 1 ≤ w i) :
    ∃ parts ⊆ sets, (parts : Set ι).PairwiseDisjoint side ∧ (sets.card : R) ≤ ∑ i ∈ parts, w i := by
  induction hn : sets.card generalizing sets with
  | zero => exact ⟨∅, Finset.empty_subset _, by simp, by simp⟩
  | succ n ih =>
    have hne : sets.Nonempty := Finset.card_pos.mp (by omega)
    obtain ⟨i, hi, hmax⟩ := Finset.exists_max_image sets (fun i => (side i).card) hne
    have hsub := Finset.erase_subset i sets
    obtain ⟨parts, hparts, hdis, hcard⟩ := @ih (sets.erase i)
      (fun j hj k hk => hlam j (hsub hj) k (hsub hk))
      (fun j hj ps hps => hw j (hsub hj) ps (hps.trans hsub))
      (by rw [Finset.card_erase_of_mem hi, hn, Nat.add_sub_cancel])
    -- a set as large as any holds the other parts or has nothing in common with them
    let inner := parts.filter fun j => side j ⊆ side i
    let outer := parts.filter fun j => ¬ side j ⊆ side i
    have houter : ∀ j ∈ outer, Disjoint (side i) (side j) := by
      intro j hj
      obtain ⟨hj, hnot⟩ := Finset.mem_filter.mp hj
      obtain ⟨hne, hj⟩ := Finset.mem_erase.mp (hparts hj)
      rcases hlam i hi j hj (Ne.symm hne) with h | h | h
      · rw [Finset.eq_of_subset_of_card_le h (hmax j hj)] at hnot
        exact absurd subset_rfl hnot
      · exact absurd h hnot
      · exact h
    have hi_parts : i ∉ parts := fun h => Finset.notMem_erase i sets (hparts h)
    have hi_outer : i ∉ outer := fun h => hi_parts (Finset.mem_filter.mp h).1
    refine ⟨insert i outer, ?_, ?_, ?_⟩
    · exact Finset.insert_subset hi ((Finset.filter_subset _ _).trans (hparts.trans hsub))
    · rw [Finset.coe_insert]
      refine (Set.PairwiseDisjoint.insert_of_notMem (hdis.subset ?_) ?_ fun j hj => houter j hj)
      · exact_mod_cast Finset.filter_subset _ _
      · exact_mod_cast hi_outer
    · have hinner : (inner : Set ι).PairwiseDisjoint side :=
        hdis.subset (by exact_mod_cast Finset.filter_subset _ _)
      have hone : ∑ j ∈ inner, w j + 1 ≤ w i :=
        hw i hi inner ((Finset.filter_subset _ _).trans (hparts.trans hsub))
          (fun h => hi_parts (Finset.mem_filter.mp h).1) hinner
          fun j hj => (Finset.mem_filter.mp hj).2
      have hsplit : ∑ j ∈ inner, w j + ∑ j ∈ outer, w j = ∑ j ∈ parts, w j :=
        Finset.sum_filter_add_sum_filter_not parts (fun j => side j ⊆ side i) w
      rw [Finset.sum_insert hi_outer]
      calc ((n + 1 : ℕ) : R) = n + 1 := by push_cast; rfl
        _ ≤ ∑ j ∈ parts, w j + 1 := by gcongr
        _ = ∑ j ∈ inner, w j + 1 + ∑ j ∈ outer, w j := by rw [← hsplit]; abel
        _ ≤ w i + ∑ j ∈ outer, w j := by gcongr

variable [Field K] [LinearOrder K] [IsStrictOrderedRing K]

/-- What an edge with the fraction `x` gives to a set and to the sets inside it. -/
def share (x : K) (a b : V) (set : Finset V) : K :=
  x * holding {a} set + x * holding {b} set + (1 - (x + x)) * holding {a, b} set

theorem share_eq (x : K) (a b : V) (set : Finset V) :
    share x a b set =
      (if Crosses set a b then x else 0) + if a ∈ set ∧ b ∈ set then 1 else 0 := by
  unfold share holding Crosses
  by_cases ha : a ∈ set <;> by_cases hb : b ∈ set <;>
    simp [ha, hb, Finset.insert_subset_iff]

section Edge

variable [DecidableEq ι] {side : ι → Finset V} {parts : Finset ι} {set : Finset V} {x : K} {a b : V}

theorem sum_share_le (h0 : 0 < x) (h1 : x < 1 / 2)
    (hdis : (parts : Set ι).PairwiseDisjoint side) (hsub : ∀ i ∈ parts, side i ⊆ set) :
    ∑ i ∈ parts, share x a b (side i) ≤ share x a b set ∧
      (∑ i ∈ parts, share x a b (side i) = share x a b set →
        ∑ i ∈ parts, (if Crosses (side i) a b then (1 : K) else 0) =
          if Crosses set a b then 1 else 0) := by
  have hle {part : Finset V} (hp : part.Nonempty) :
      ∑ i ∈ parts, (holding part (side i) : K) ≤ holding part set := by
    exact_mod_cast sum_holding_le hp hdis hsub
  have ha := hle (Finset.singleton_nonempty a)
  have hb := hle (Finset.singleton_nonempty b)
  have hab := hle (Finset.insert_nonempty a {b})
  have hsum : ∑ i ∈ parts, share x a b (side i) =
      x * ∑ i ∈ parts, (holding {a} (side i) : K) + x * ∑ i ∈ parts, (holding {b} (side i) : K) +
        (1 - (x + x)) * ∑ i ∈ parts, (holding {a, b} (side i) : K) := by
    simp only [share, Finset.sum_add_distrib, Finset.mul_sum]
  have hcross (set : Finset V) : (if Crosses set a b then (1 : K) else 0) =
      holding {a} set + holding {b} set - 2 * holding {a, b} set := by
    unfold holding Crosses
    by_cases ha : a ∈ set <;> by_cases hb : b ∈ set <;>
      simp [ha, hb, Finset.insert_subset_iff]
    norm_num
  have h2 : 0 < 1 - (x + x) := by linarith
  have hxa := mul_le_mul_of_nonneg_left ha h0.le
  have hxb := mul_le_mul_of_nonneg_left hb h0.le
  have hxab := mul_le_mul_of_nonneg_left hab h2.le
  refine ⟨by rw [hsum, share]; linarith, fun heq => ?_⟩
  rw [hsum, share] at heq
  have hea := mul_left_cancel₀ h0.ne' (le_antisymm hxa (by linarith))
  have heb := mul_left_cancel₀ h0.ne' (le_antisymm hxb (by linarith))
  have heab := mul_left_cancel₀ h2.ne' (le_antisymm hxab (by linarith))
  simp only [hcross, Finset.sum_sub_distrib, Finset.sum_add_distrib, ← Finset.mul_sum, hea, heb,
    heab]

end Edge

theorem exists_int_sum {ι : Type} {parts : Finset ι} {w : ι → K}
    (h : ∀ i ∈ parts, ∃ n : ℤ, w i = n) : ∃ n : ℤ, ∑ i ∈ parts, w i = n := by
  choose! n hn using h
  refine ⟨∑ i ∈ parts, n i, ?_⟩
  push_cast
  exact Finset.sum_congr rfl hn

theorem add_one_le_of_whole {v w : K} (hv : ∃ n : ℤ, v = n) (hw : ∃ n : ℤ, w = n) (hlt : v < w) :
    v + 1 ≤ w := by
  obtain ⟨n, rfl⟩ := hv
  obtain ⟨k, rfl⟩ := hw
  have hlt : n < k := Int.cast_lt.mp hlt
  exact_mod_cast hlt

section Open

variable {E C : Finset α} {x d : α → K} (counts : α → Prop) [DecidablePred counts]

theorem sum_filter_of_support (hE : E ⊆ C) (hd : ∀ e ∉ E, d e = 0) :
    ∑ e ∈ C with counts e, d e = ∑ e ∈ E with counts e, d e := by
  refine (Finset.sum_subset (Finset.filter_subset_filter _ hE) fun e he hno => hd e ?_).symm
  intro heE
  exact hno (Finset.mem_filter.mpr ⟨heE, (Finset.mem_filter.mp he).2⟩)

theorem exists_int_open (hE : E ⊆ C) (hclosed : ∀ e ∈ C, e ∉ E → x e = 0 ∨ x e = 1)
    (h : ∃ n : ℤ, ∑ e ∈ C with counts e, x e = n) : ∃ n : ℤ, ∑ e ∈ E with counts e, x e = n := by
  classical
  obtain ⟨n, hn⟩ := h
  obtain ⟨k, hk⟩ : ∃ k : ℤ, ∑ e ∈ C \ E with counts e, x e = k := by
    refine exists_int_sum fun e he => ?_
    obtain ⟨heC, heE⟩ := Finset.mem_sdiff.mp (Finset.mem_filter.mp he).1
    rcases hclosed e heC heE with hx | hx
    · exact ⟨0, by rw [hx, Int.cast_zero]⟩
    · exact ⟨1, by rw [hx, Int.cast_one]⟩
  have hsplit : ∑ e ∈ C \ E with counts e, x e + ∑ e ∈ E with counts e, x e =
      ∑ e ∈ C with counts e, x e := by
    simp only [Finset.sum_filter]
    exact Finset.sum_sdiff hE
  exact ⟨n - k, by
    push_cast
    linarith⟩

end Open

section Family

variable {E : Finset α} {a b : α → V} {x : α → K}

def crossed (E : Finset α) (a b : α → V) (x : α → K) (set : Finset V) : K :=
  ∑ e ∈ E with Crosses set (a e) (b e), x e

theorem crossed_eq (E : Finset α) (a b : α → V) (x : α → K) (set : Finset V) :
    crossed E a b x set = ∑ e ∈ E, (if Crosses set (a e) (b e) then 1 else 0) * x e := by
  rw [crossed, Finset.sum_filter]
  simp only [ite_mul, one_mul, zero_mul]

/-- What the edges give to a set and to the sets inside it. -/
def given (E : Finset α) (a b : α → V) (x : α → K) (set : Finset V) : K :=
  ∑ e ∈ E, share (x e) (a e) (b e) set

theorem exists_given_eq {set : Finset V} (h : ∃ n : ℤ, crossed E a b x set = n) :
    ∃ n : ℤ, given E a b x set = n := by
  obtain ⟨n, hn⟩ := h
  rw [crossed] at hn
  refine ⟨n + (E.filter fun e => a e ∈ set ∧ b e ∈ set).card, ?_⟩
  simp only [given, share_eq, Finset.sum_add_distrib, ← Finset.sum_filter, hn]
  simp

variable [DecidableEq ι] {side : ι → Finset V}

/-- Disjoint parts of a set are given less than it is, unless every edge crosses the set just where
it crosses one of them. -/
theorem sum_given_lt (hx : ∀ e ∈ E, 0 < x e ∧ x e < 1 / 2) (parts : Finset ι) (set : Finset V)
    (hdis : (parts : Set ι).PairwiseDisjoint side) (hsub : ∀ i ∈ parts, side i ⊆ set)
    (hind : ∃ e ∈ E, ∑ i ∈ parts, (if Crosses (side i) (a e) (b e) then (1 : K) else 0) ≠
      if Crosses set (a e) (b e) then 1 else 0) :
    ∑ i ∈ parts, given E a b x (side i) < given E a b x set := by
  obtain ⟨e, he, hne⟩ := hind
  calc ∑ i ∈ parts, given E a b x (side i)
      = ∑ e ∈ E, ∑ i ∈ parts, share (x e) (a e) (b e) (side i) := Finset.sum_comm
    _ < ∑ e ∈ E, share (x e) (a e) (b e) set := by
        refine Finset.sum_lt_sum (fun e he => (sum_share_le (hx e he).1 (hx e he).2 hdis hsub).1)
          ⟨e, he, ?_⟩
        obtain ⟨hle, heq⟩ := sum_share_le (a := a e) (b := b e) (hx e he).1 (hx e he).2 hdis hsub
        exact hle.lt_of_ne fun h => hne (heq h)

/-- The crossings of no set are those of others together. -/
def Independent (K : Type) [Field K] (E : Finset α) (a b : α → V) (side : ι → Finset V)
    (sets : Finset ι) : Prop :=
  ∀ i ∈ sets, ∀ parts ⊆ sets, i ∉ parts →
    ∃ e ∈ E, ∑ j ∈ parts, (if Crosses (side j) (a e) (b e) then (1 : K) else 0) ≠
      if Crosses (side i) (a e) (b e) then 1 else 0

theorem Independent.exists_crossing {sets : Finset ι} (h : Independent K E a b side sets) {i : ι}
    (hi : i ∈ sets) : ∃ e ∈ E, Crosses (side i) (a e) (b e) := by
  obtain ⟨e, he, hne⟩ := h i hi ∅ (Finset.empty_subset _) (Finset.notMem_empty i)
  refine ⟨e, he, ?_⟩
  by_contra hno
  rw [Finset.sum_empty, if_neg hno] at hne
  exact hne rfl

theorem exists_outermost (hx : ∀ e ∈ E, 0 < x e ∧ x e < 1 / 2) {sets : Finset ι}
    (hlam : Laminar side sets) (hwhole : ∀ i ∈ sets, ∃ n : ℤ, crossed E a b x (side i) = n)
    (hind : Independent K E a b side sets) :
    ∃ parts ⊆ sets, (parts : Set ι).PairwiseDisjoint side ∧
      (sets.card : K) ≤ ∑ i ∈ parts, given E a b x (side i) := by
  refine hlam.exists_outermost fun i hi parts hparts hnot hdis hsub => ?_
  exact add_one_le_of_whole (exists_int_sum fun j hj => exists_given_eq (hwhole j (hparts hj)))
    (exists_given_eq (hwhole i hi))
    (sum_given_lt hx parts (side i) hdis hsub (hind i hi parts hparts hnot))

/-- There are fewer independent nested sets than edges, when the fractions of the edges across each
make up a whole number and none of them is a half. -/
theorem card_lt_of_laminar (hE : E.Nonempty) (hx : ∀ e ∈ E, 0 < x e ∧ x e < 1 / 2)
    {sets : Finset ι} (hlam : Laminar side sets)
    (hwhole : ∀ i ∈ sets, ∃ n : ℤ, crossed E a b x (side i) = n)
    (hind : Independent K E a b side sets) : sets.card < E.card := by
  obtain ⟨parts, hparts, hdis, hcard⟩ := exists_outermost hx hlam hwhole hind
  rcases parts.eq_empty_or_nonempty with rfl | ⟨i, hi⟩
  · rw [Finset.sum_empty] at hcard
    have hnone : sets.card ≤ 0 := by exact_mod_cast hcard
    exact hnone.trans_lt (Finset.card_pos.mpr hE)
  -- one set around everything gets each edge once
  let whole := E.image a ∪ E.image b ∪ parts.biUnion side
  have hends : ∀ e ∈ E, a e ∈ whole ∧ b e ∈ whole := by
    intro e he
    have ha := Finset.mem_image_of_mem a he
    have hb := Finset.mem_image_of_mem b he
    simp only [whole, Finset.mem_union]
    exact ⟨.inl (.inl ha), .inl (.inr hb)⟩
  have hall : given E a b x whole = E.card := by
    rw [← nsmul_one, ← Finset.sum_const]
    refine Finset.sum_congr rfl fun e he => ?_
    simp [share_eq, Crosses, hends e he]
  have hlt := sum_given_lt hx parts whole hdis
    (fun j hj => (Finset.subset_biUnion_of_mem side hj).trans Finset.subset_union_right) (by
      -- some edge crosses the part, and none crosses the whole
      obtain ⟨e, he, hc⟩ := hind.exists_crossing (hparts hi)
      refine ⟨e, he, ?_⟩
      have hno : ¬ Crosses whole (a e) (b e) := by simp [Crosses, hends e he]
      have hle := Finset.single_le_sum
        (f := fun j => if Crosses (side j) (a e) (b e) then (1 : K) else 0)
        (fun j _ => by split <;> simp) hi
      simp only [hc, if_true] at hle
      rw [if_neg hno]
      exact (zero_lt_one.trans_le hle).ne')
  rw [hall] at hlt
  exact_mod_cast hcard.trans_lt hlt

theorem exists_needed {P : Finset ι → Prop} {sets : Finset ι} (h : P sets) :
    ∃ needed ⊆ sets, P needed ∧ ∀ i ∈ needed, ¬ P (needed.erase i) := by
  induction sets using Finset.strongInduction with
  | H sets ih =>
    by_cases hi : ∃ i ∈ sets, P (sets.erase i)
    · obtain ⟨i, hi, hP⟩ := hi
      obtain ⟨needed, hsub, hneeded⟩ := ih _ (Finset.erase_ssubset hi) hP
      exact ⟨needed, hsub.trans (Finset.erase_subset _ _), hneeded⟩
    · exact ⟨sets, subset_rfl, h, fun i hi' hP => hi ⟨i, hi', hP⟩⟩

/-- Some change of the edges cancels out across every set. -/
theorem exists_unnoticed (hE : E.Nonempty) (hx : ∀ e ∈ E, 0 < x e ∧ x e < 1 / 2)
    {sets : Finset ι} (hlam : Laminar side sets)
    (hwhole : ∀ i ∈ sets, ∃ n : ℤ, crossed E a b x (side i) = n) :
    ∃ d : α → K, d ≠ 0 ∧ (∀ e ∉ E, d e = 0) ∧ ∀ i ∈ sets, crossed E a b d (side i) = 0 := by
  let across (i : ι) : (α → K) →ₗ[K] K :=
    ∑ e ∈ E with Crosses (side i) (a e) (b e), LinearMap.proj e
  have hacross (i : ι) (d : α → K) : across i d = crossed E a b d (side i) := by
    simp [across, crossed]
  let Determined (sets : Finset ι) : Prop :=
    ∀ d : α → K, (∀ e ∉ E, d e = 0) → (∀ i ∈ sets, across i d = 0) → d = 0
  by_contra hno
  have hall : Determined sets := by
    intro d hd hz
    by_contra hne
    exact hno ⟨d, hne, hd, fun i hi => hacross i d ▸ hz i hi⟩
  obtain ⟨needed, hsub, hdet, hneeded⟩ := exists_needed hall
  have hind : Independent K E a b side needed := by
    intro i hi parts hparts hnot
    by_contra hsame
    push Not at hsame
    -- the set crossed just where others are says nothing that these do not
    refine hneeded i hi fun d hd hz => hdet d hd fun j hj => ?_
    by_cases hji : j = i
    · subst hji
      calc across j d
          = ∑ e ∈ E, (if Crosses (side j) (a e) (b e) then 1 else 0) * d e := by
            rw [hacross, crossed_eq]
        _ = ∑ e ∈ E, ∑ k ∈ parts, (if Crosses (side k) (a e) (b e) then 1 else 0) * d e :=
            Finset.sum_congr rfl fun e he => by rw [← hsame e he, Finset.sum_mul]
        _ = ∑ k ∈ parts, across k d := by
            rw [Finset.sum_comm]
            exact Finset.sum_congr rfl fun k _ => by rw [hacross, crossed_eq]
        _ = 0 := Finset.sum_eq_zero fun k hk =>
            hz k (Finset.mem_erase.mpr ⟨fun h => hnot (h ▸ hk), hparts hk⟩)
    · exact hz j (Finset.mem_erase.mpr ⟨hji, hj⟩)
  have hlt := card_lt_of_laminar hE hx (fun i hi j hj => hlam i (hsub hi) j (hsub hj))
    (fun i hi => hwhole i (hsub hi)) hind
  exact absurd (card_le_of_determined across hdet) (not_le.mpr hlt)

end Family

end LPRounding
