import LPRounding.Proofs.Graph.Laminar

/-!
Sets that hold as much as a tree does. Where no set of vertices holds more than one less than it has
members, those that hold as much can be uncrossed, so nested ones among them say what all of them
say. An edge gives its fraction to a nested set around both of its ends and the rest to its ends
themselves; so nested sets, and vertices at which two or more of the fractions are left over, do not
tell the fractions.
-/

namespace LPRounding

set_option linter.unusedSectionVars false

variable {V α K : Type}

/-- Two sets that have something in common, and each something for itself. -/
def Overlap (s t : Finset V) : Prop := ¬ s ⊆ t ∧ ¬ t ⊆ s ∧ ¬ Disjoint s t

section Overlap

variable [DecidableEq V] {s t u : Finset V}

theorem Laminar.insert {sets : Finset (Finset V)} (h : Laminar id sets)
    (hs : ∀ t ∈ sets, ¬ Overlap s t) : Laminar id (insert s sets) := by
  have apart {t : Finset V} (ht : t ∈ sets) : s ⊆ t ∨ t ⊆ s ∨ Disjoint s t := by
    by_contra hno
    push Not at hno
    exact hs t ht hno
  intro t ht u hu hne
  rcases Finset.mem_insert.mp ht with rfl | hts <;> rcases Finset.mem_insert.mp hu with rfl | hus
  · exact absurd rfl hne
  · exact apart hus
  · rcases apart hts with h | h | h
    · exact .inr (.inl h)
    · exact .inl h
    · exact .inr (.inr h.symm)
  · exact h t hts u hus hne

theorem Overlap.of_inter (h : Overlap (s ∩ t) u) (htu : t ⊆ u ∨ u ⊆ t ∨ Disjoint t u) :
    Overlap s u := by
  obtain ⟨hst, hus, hmeet⟩ := h
  refine ⟨fun hsub => hst (Finset.inter_subset_left.trans hsub), fun hsub => ?_,
    fun hdis => hmeet (hdis.mono_left Finset.inter_subset_left)⟩
  rcases htu with h | h | h
  · exact hst (Finset.inter_subset_right.trans h)
  · exact hus (Finset.subset_inter hsub h)
  · exact hmeet (h.mono_left Finset.inter_subset_right)

theorem Overlap.of_union (h : Overlap (s ∪ t) u) (htu : t ⊆ u ∨ u ⊆ t ∨ Disjoint t u)
    (hst : ¬ Disjoint s t) : Overlap s u := by
  obtain ⟨hsub, hus, hmeet⟩ := h
  rcases htu with htu | htu | htu
  · exact ⟨fun h => hsub (Finset.union_subset h htu),
      fun h => hus (h.trans Finset.subset_union_left), fun h => hst (h.mono_right htu)⟩
  · exact absurd (htu.trans Finset.subset_union_right) hus
  · exact ⟨fun h => hst (htu.symm.mono_left h), fun h => hus (h.trans Finset.subset_union_left),
      fun h => hmeet (Finset.disjoint_union_left.mpr ⟨h, htu⟩)⟩

theorem Overlap.of_sdiff_left (h : Overlap (s \ t) u) (htu : t ⊆ u ∨ u ⊆ t ∨ Disjoint t u)
    (hst : ¬ t ⊆ s) : Overlap s u := by
  obtain ⟨hsub, hus, hmeet⟩ := h
  refine ⟨fun hsu => hsub (Finset.sdiff_subset.trans hsu), fun hsub => ?_,
    fun hdis => hmeet (hdis.mono_left Finset.sdiff_subset)⟩
  rcases htu with htu | htu | htu
  · exact hst (htu.trans hsub)
  · exact hmeet (Finset.disjoint_sdiff.symm.mono_right htu)
  · exact hus (Finset.subset_sdiff.mpr ⟨hsub, htu.symm⟩)

theorem Overlap.of_sdiff_right (h : Overlap (t \ s) u) (htu : t ⊆ u ∨ u ⊆ t ∨ Disjoint t u)
    (hst : ¬ s ⊆ t) : Overlap s u := by
  obtain ⟨hsub, hus, hmeet⟩ := h
  rcases htu with htu | htu | htu
  · exact absurd (Finset.sdiff_subset.trans htu) hsub
  · exact ⟨fun h => hst (h.trans htu), fun h => hmeet (Finset.disjoint_sdiff.symm.mono_right h),
      fun h => hus (Finset.subset_sdiff.mpr ⟨htu, h.symm⟩)⟩
  · exact absurd (htu.mono_left Finset.sdiff_subset) hmeet

/-- Two sets are made into their common part and their union, or into what each has for itself. -/
inductive Uncrosses (s t : Finset V) : Finset V → Finset V → Prop
  | merge : Uncrosses s t (s ∩ t) (s ∪ t)
  | part : Uncrosses s t (s \ t) (t \ s)

theorem Uncrosses.subset {s' t' vs : Finset V} (h : Uncrosses s t s' t') (hs : s ⊆ vs)
    (ht : t ⊆ vs) : s' ⊆ vs ∧ t' ⊆ vs := by
  cases h with
  | merge => exact ⟨Finset.inter_subset_left.trans hs, Finset.union_subset hs ht⟩
  | part => exact ⟨Finset.sdiff_subset.trans hs, Finset.sdiff_subset.trans ht⟩

theorem Uncrosses.apart {s' t' : Finset V} (h : Uncrosses s t s' t') :
    ¬ Overlap s' t ∧ ¬ Overlap t' t := by
  cases h with
  | merge =>
    exact ⟨fun h => h.1 Finset.inter_subset_right, fun h => h.2.1 Finset.subset_union_right⟩
  | part => exact ⟨fun h => h.2.2 Finset.sdiff_disjoint, fun h => h.1 Finset.sdiff_subset⟩

theorem Uncrosses.overlap {s' t' : Finset V} (h : Uncrosses s t s' t') (hst : Overlap s t)
    (htu : t ⊆ u ∨ u ⊆ t ∨ Disjoint t u) :
    (Overlap s' u → Overlap s u) ∧ (Overlap t' u → Overlap s u) := by
  cases h with
  | merge => exact ⟨fun h => h.of_inter htu, fun h => h.of_union htu hst.2.2⟩
  | part => exact ⟨fun h => h.of_sdiff_left htu hst.2.1, fun h => h.of_sdiff_right htu hst.1⟩

open Classical in
theorem card_overlap_lt {sets : Finset (Finset V)} (ht : t ∈ sets) (hst : Overlap s t)
    (hut : ¬ Overlap u t) (hmore : ∀ r ∈ sets, Overlap u r → Overlap s r) :
    (sets.filter (Overlap u)).card < (sets.filter (Overlap s)).card := by
  refine Finset.card_lt_card ⟨fun r hr => ?_, fun hsub => ?_⟩
  · obtain ⟨hr, hur⟩ := Finset.mem_filter.mp hr
    exact Finset.mem_filter.mpr ⟨hr, hmore r hr hur⟩
  · exact hut (Finset.mem_filter.mp (hsub (Finset.mem_filter.mpr ⟨ht, hst⟩))).2

/-- What is true of nested sets carries over to all sets of a kind, if each of these is nested or
overlaps a nested one, from which it can be uncrossed. -/
theorem Laminar.carry {nested : Finset (Finset V)} (hlam : Laminar id nested)
    {kind good : Finset V → Prop} (hnested : ∀ s ∈ nested, good s)
    (hall : ∀ s, kind s → (∀ t ∈ nested, ¬ Overlap s t) → s ∈ nested)
    (huncross : ∀ s t, kind s → t ∈ nested → Overlap s t → ∃ s' t', Uncrosses s t s' t' ∧
      kind s' ∧ kind t' ∧ (good s' → good t' → good s)) {s : Finset V} (hs : kind s) : good s := by
  classical
  -- by induction on how many of the nested sets it overlaps
  induction hn : (nested.filter (Overlap s)).card using Nat.strong_induction_on generalizing s with
  | _ n ih =>
    by_cases hover : ∃ t ∈ nested, Overlap s t
    · obtain ⟨t, ht, hst⟩ := hover
      obtain ⟨s', t', h, hs', ht', hgood⟩ := huncross s t hs ht hst
      have apart (u : Finset V) (hu : u ∈ nested) : t ⊆ u ∨ u ⊆ t ∨ Disjoint t u := by
        by_cases htu : t = u
        · exact .inl htu.subset
        · exact hlam t ht u hu htu
      exact hgood
        (ih _ (hn ▸ card_overlap_lt ht hst h.apart.1 fun u hu => (h.overlap hst (apart u hu)).1) hs' rfl)
        (ih _ (hn ▸ card_overlap_lt ht hst h.apart.2 fun u hu => (h.overlap hst (apart u hu)).2) ht' rfl)
    · exact hnested s (hall s hs fun t ht hst => hover ⟨t, ht, hst⟩)

theorem exists_laminar_maximal {vs : Finset V} (kind : Finset V → Prop)
    (hkind : ∀ s, kind s → s ⊆ vs) :
    ∃ nested : Finset (Finset V), Laminar id nested ∧ (∀ s ∈ nested, kind s) ∧
      ∀ s, kind s → (∀ t ∈ nested, ¬ Overlap s t) → s ∈ nested := by
  classical
  let families := (vs.powerset.filter kind).powerset.filter (Laminar id)
  have hempty : ∅ ∈ families := by
    refine Finset.mem_filter.mpr ⟨Finset.mem_powerset.mpr (Finset.empty_subset _), ?_⟩
    intro s hs
    simp at hs
  obtain ⟨nested, hnested, hmax⟩ := Finset.exists_max_image families Finset.card ⟨∅, hempty⟩
  obtain ⟨hsub, hlam⟩ := Finset.mem_filter.mp hnested
  have hsub := Finset.mem_powerset.mp hsub
  refine ⟨nested, hlam, fun s hs => (Finset.mem_filter.mp (hsub hs)).2, fun s hs hapart => ?_⟩
  by_contra hno
  have hmem : insert s nested ∈ families := by
    refine Finset.mem_filter.mpr ⟨Finset.mem_powerset.mpr ?_, hlam.insert hapart⟩
    exact Finset.insert_subset
      (Finset.mem_filter.mpr ⟨Finset.mem_powerset.mpr (hkind s hs), hs⟩) hsub
  have hle := hmax _ hmem
  rw [Finset.card_insert_of_notMem hno] at hle
  omega

end Overlap

section Held

variable [DecidableEq V] [Field K] {E C : Finset α} {a b : α → V} {x d : α → K}
  {s t : Finset V}

def held (E : Finset α) (a b : α → V) (x : α → K) (set : Finset V) : K :=
  ∑ e ∈ E with a e ∈ set ∧ b e ∈ set, x e

theorem held_eq (E : Finset α) (a b : α → V) (x : α → K) (set : Finset V) :
    held E a b x set = ∑ e ∈ E, (holding {a e, b e} set : K) * x e := by
  rw [held, Finset.sum_filter]
  refine Finset.sum_congr rfl fun e _ => ?_
  simp [holding, Finset.insert_subset_iff]

theorem held_add_held (E : Finset α) (a b : α → V) (x : α → K) (s t : Finset V) :
    held E a b x (s ∪ t) + held E a b x (s ∩ t) = held E a b x s + held E a b x t +
      ∑ e ∈ E with (a e ∈ s \ t ∧ b e ∈ t \ s) ∨ (a e ∈ t \ s ∧ b e ∈ s \ t), x e := by
  simp only [held, Finset.sum_filter, ← Finset.sum_add_distrib]
  refine Finset.sum_congr rfl fun e _ => ?_
  by_cases has : a e ∈ s <;> by_cases hat : a e ∈ t <;> by_cases hbs : b e ∈ s <;>
    by_cases hbt : b e ∈ t <;> simp [has, hat, hbs, hbt]

variable [LinearOrder K] [IsStrictOrderedRing K] {vs : Finset V}

/-- No set of the vertices holds more than one less than it has members. -/
def Forestlike (E : Finset α) (a b : α → V) (x : α → K) (vs : Finset V) : Prop :=
  ∀ set ⊆ vs, set.Nonempty → held E a b x set ≤ set.card - 1

theorem Forestlike.loop_le (h : Forestlike E a b x vs) (h0 : ∀ e ∈ E, 0 ≤ x e) {e : α} (he : e ∈ E)
    (hv : a e ∈ vs) (hloop : b e = a e) : x e ≤ 0 := by
  have hle := h {a e} (Finset.singleton_subset_iff.mpr hv) (Finset.singleton_nonempty _)
  rw [Finset.card_singleton, Nat.cast_one, sub_self] at hle
  refine le_trans (Finset.single_le_sum (f := x) (fun i hi => h0 i ?_) ?_) hle
  · exact (Finset.mem_filter.mp hi).1
  · simp [he, hloop]

/-- The set holds just as much. -/
structure Tight (E : Finset α) (a b : α → V) (x : α → K) (vs set : Finset V) : Prop where
  subset : set ⊆ vs
  nonempty : set.Nonempty
  full : held E a b x set = set.card - 1

theorem Tight.uncross (hs : Tight E a b x vs s) (ht : Tight E a b x vs t)
    (hforest : Forestlike E a b x vs) (h0 : ∀ e ∈ E, 0 ≤ x e) (hst : ¬ Disjoint s t) :
    Tight E a b x vs (s ∩ t) ∧ Tight E a b x vs (s ∪ t) ∧
      ∀ e ∈ E, (a e ∈ s \ t ∧ b e ∈ t \ s) ∨ (a e ∈ t \ s ∧ b e ∈ s \ t) → x e = 0 := by
  have hinter : (s ∩ t).Nonempty := Finset.not_disjoint_iff_nonempty_inter.mp hst
  have hinterSub : s ∩ t ⊆ vs := Finset.inter_subset_left.trans hs.subset
  have hunionSub : s ∪ t ⊆ vs := Finset.union_subset hs.subset ht.subset
  have hunion : (s ∪ t).Nonempty := hs.nonempty.mono Finset.subset_union_left
  have hle := hforest _ hinterSub hinter
  have hle' := hforest _ hunionSub hunion
  have hsum := held_add_held E a b x s t
  have hcard : ((s ∪ t).card : K) + (s ∩ t).card = s.card + t.card := by
    exact_mod_cast Finset.card_union_add_card_inter s t
  have hnonneg (e : α) (he : e ∈ E.filter fun e =>
      (a e ∈ s \ t ∧ b e ∈ t \ s) ∨ (a e ∈ t \ s ∧ b e ∈ s \ t)) : 0 ≤ x e :=
    h0 e (Finset.mem_filter.mp he).1
  have hbetween := Finset.sum_nonneg hnonneg
  rw [hs.full, ht.full] at hsum
  refine ⟨⟨hinterSub, hinter, by linarith⟩, ⟨hunionSub, hunion, by linarith⟩, fun e he hcross => ?_⟩
  have hzero := (Finset.sum_eq_zero_iff_of_nonneg hnonneg).mp (by linarith)
  exact hzero e (Finset.mem_filter.mpr ⟨he, hcross⟩)

theorem exists_laminar_tight (hforest : Forestlike E a b x vs) (h0 : ∀ e ∈ E, 0 ≤ x e) :
    ∃ nested : Finset (Finset V), Laminar id nested ∧ (∀ s ∈ nested, Tight E a b x vs s) ∧
      ∀ d : α → K, (∀ e ∈ E, x e = 0 → d e = 0) → (∀ s ∈ nested, held E a b d s = 0) →
        ∀ s, Tight E a b x vs s → held E a b d s = 0 := by
  obtain ⟨nested, hlam, htight, hall⟩ :=
    exists_laminar_maximal (Tight E a b x vs) fun _ hs => hs.subset
  refine ⟨nested, hlam, htight, fun d hd hzero s hs => hlam.carry hzero hall ?_ hs⟩
  intro s t hs ht hst
  obtain ⟨hinter, hunion, hbetween⟩ := hs.uncross (htight t ht) hforest h0 hst.2.2
  refine ⟨_, _, .merge, hinter, hunion, fun hzi hzu => ?_⟩
  have hsum := held_add_held E a b d s t
  rw [Finset.sum_eq_zero (s := E.filter _) fun e he => ?_] at hsum
  · rw [hzi, hzu, hzero t ht] at hsum
    linarith
  · obtain ⟨he, hcross⟩ := Finset.mem_filter.mp he
    exact hd e he (hbetween e he hcross)

theorem Tight.exists_int (h : Tight C a b x vs s) (hE : E ⊆ C)
    (hclosed : ∀ e ∈ C, e ∉ E → x e = 0 ∨ x e = 1) : ∃ n : ℤ, held E a b x s = n := by
  refine exists_int_open (fun e => a e ∈ s ∧ b e ∈ s) hE hclosed ⟨s.card - 1, ?_⟩
  push_cast
  exact h.full

end Held

section Counting

variable [DecidableEq V] [Field K] [LinearOrder K] [IsStrictOrderedRing K] {E C : Finset α}
  {a b : α → V} {x : α → K} {vs ends : Finset V} {nested : Finset (Finset V)}

def around (a b : α → V) (sets : Finset (Finset V)) (e : α) : K :=
  ∑ s ∈ sets, (holding {a e, b e} s : K)

def touched (a b : α → V) (ends : Finset V) (e : α) : K :=
  ∑ v ∈ ends, if a e = v ∨ b e = v then 1 else 0

theorem sum_held (E : Finset α) (a b : α → V) (d : α → K) (sets : Finset (Finset V)) :
    ∑ s ∈ sets, held E a b d s = ∑ e ∈ E, around a b sets e * d e := by
  simp only [held_eq, around, Finset.sum_mul]
  exact Finset.sum_comm

theorem sum_touching (E : Finset α) (a b : α → V) (d : α → K) (ends : Finset V) :
    ∑ v ∈ ends, ∑ e ∈ E with a e = v ∨ b e = v, d e = ∑ e ∈ E, touched a b ends e * d e := by
  simp only [Finset.sum_filter, touched, Finset.sum_mul, ite_mul, one_mul, zero_mul]
  exact Finset.sum_comm

theorem touched_le (a b : α → V) (ends : Finset V) (e : α) : touched a b ends e ≤ (2 : K) := by
  have hpoint (v w : V) : ∑ u ∈ ends, (if w = u then (1 : K) else 0) ≤ 1 := by
    rw [Finset.sum_ite_eq]
    split <;> simp
  calc touched a b ends e
      ≤ ∑ v ∈ ends, ((if a e = v then (1 : K) else 0) + if b e = v then 1 else 0) := by
        refine Finset.sum_le_sum fun v _ => ?_
        by_cases ha : a e = v <;> by_cases hb : b e = v <;> simp [ha, hb]
    _ ≤ 1 + 1 := by
        rw [Finset.sum_add_distrib]
        exact add_le_add (hpoint (a e) (a e)) (hpoint (b e) (b e))
    _ = 2 := one_add_one_eq_two

/-- No set is around the same edges as others together. -/
def Needed (K : Type) [Field K] (E : Finset α) (a b : α → V) (nested : Finset (Finset V)) : Prop :=
  ∀ s ∈ nested, ∀ parts ⊆ nested, s ∉ parts → ∃ e ∈ E, around a b parts e ≠ (holding {a e, b e} s : K)

theorem exists_disjoint (hpos : ∀ e ∈ E, 0 < x e) (hlam : Laminar id nested)
    (hwhole : ∀ s ∈ nested, ∃ n : ℤ, held E a b x s = n) (hneed : Needed K E a b nested) :
    ∃ parts ⊆ nested, (∀ e, around a b parts e ≤ (1 : K)) ∧
      (nested.card : K) ≤ ∑ e ∈ E, around a b parts e * x e := by
  have around_le {parts : Finset (Finset V)} {s : Finset V}
      (hdis : (parts : Set (Finset V)).PairwiseDisjoint id) (hsub : ∀ t ∈ parts, t ⊆ s) (e : α) :
      around a b parts e ≤ (holding {a e, b e} s : K) := by
    unfold around
    exact_mod_cast sum_holding_le (Finset.insert_nonempty (a e) {b e}) hdis hsub
  obtain ⟨parts, hparts, hdis, hcard⟩ := hlam.exists_outermost (w := held E a b x)
    fun s hs parts hparts hnot hdis hsub => by
      have hle : ∑ e ∈ E, around a b parts e * x e ≤ ∑ e ∈ E, (holding {a e, b e} s : K) * x e :=
        Finset.sum_le_sum fun e he =>
          mul_le_mul_of_nonneg_right (around_le hdis hsub e) (hpos e he).le
      have hlt : ∑ t ∈ parts, held E a b x t < held E a b x s := by
        rw [sum_held, held_eq]
        refine hle.lt_of_ne fun heq => ?_
        obtain ⟨e, he, hne⟩ := hneed s hs parts hparts hnot
        have hterm := (Finset.sum_eq_sum_iff_of_le fun e he =>
          mul_le_mul_of_nonneg_right (around_le hdis hsub e) (hpos e he).le).mp heq e he
        exact hne (mul_right_cancel₀ (hpos e he).ne' hterm)
      exact add_one_le_of_whole (exists_int_sum fun t ht => hwhole t (hparts ht)) (hwhole s hs) hlt
  refine ⟨parts, hparts, fun e => ?_, ?_⟩
  · have hle := around_le hdis (s := parts.biUnion id)
      (fun t ht => Finset.subset_biUnion_of_mem id ht) e
    refine hle.trans ?_
    unfold holding
    split <;> simp
  · rwa [sum_held] at hcard

theorem full_of_card_le (hopen : ∀ e ∈ E, 0 < x e ∧ x e < 1) (hlam : Laminar id nested)
    (hwhole : ∀ s ∈ nested, ∃ n : ℤ, held E a b x s = n) (hneed : Needed K E a b nested)
    (hends : ∀ v ∈ ends, 2 ≤ ∑ e ∈ E with a e = v ∨ b e = v, (1 - x e))
    (hcard : E.card ≤ nested.card + ends.card) :
    ∃ parts ⊆ nested, ∀ e ∈ E, around a b parts e = (1 : K) ∧ touched a b ends e = (2 : K) := by
  obtain ⟨parts, hparts, hone, hle⟩ := exists_disjoint (fun e he => (hopen e he).1) hlam hwhole hneed
  refine ⟨parts, hparts, ?_⟩
  have htwo : (2 * ends.card : K) ≤ ∑ e ∈ E, touched a b ends e * (1 - x e) := by
    rw [← sum_touching, mul_comm, ← nsmul_eq_mul, ← Finset.sum_const]
    exact Finset.sum_le_sum hends
  have hterm (e : α) (he : e ∈ E) :
      2 * (around a b parts e * x e) + touched a b ends e * (1 - x e) ≤ 2 := by
    obtain ⟨h0, h1⟩ := hopen e he
    nlinarith [hone e, touched_le (K := K) a b ends e]
  have hcard : (E.card : K) ≤ nested.card + ends.card := by exact_mod_cast hcard
  have htotal : ∑ e ∈ E, (2 * (around a b parts e * x e) + touched a b ends e * (1 - x e)) =
      ∑ e ∈ E, (2 : K) := by
    refine le_antisymm (Finset.sum_le_sum hterm) ?_
    rw [Finset.sum_const, nsmul_eq_mul, Finset.sum_add_distrib, ← Finset.mul_sum]
    linarith
  intro e he
  have heq := (Finset.sum_eq_sum_iff_of_le hterm).mp htotal e he
  obtain ⟨h0, h1⟩ := hopen e he
  have hone := hone e
  have htouched := touched_le (K := K) a b ends e
  constructor
  · nlinarith
  · nlinarith

def Determines (E : Finset α) (a b : α → V) (K : Type) [Field K] (needed : Finset (Finset V ⊕ V)) :
    Prop :=
  ∀ d : α → K, (∀ e ∉ E, d e = 0) → (∀ s ∈ needed.toLeft, held E a b d s = 0) →
    (∀ v ∈ needed.toRight, ∑ e ∈ E with a e = v ∨ b e = v, d e = 0) → d = 0

theorem Determines.card_le {needed : Finset (Finset V ⊕ V)} (h : Determines E a b K needed) :
    E.card ≤ needed.toLeft.card + needed.toRight.card := by
  let form : Finset V ⊕ V → (α → K) →ₗ[K] K :=
    Sum.elim (fun s => ∑ e ∈ E with a e ∈ s ∧ b e ∈ s, LinearMap.proj e)
      fun v => ∑ e ∈ E with a e = v ∨ b e = v, LinearMap.proj e
  rw [Finset.card_toLeft_add_card_toRight]
  refine card_le_of_determined form fun d hd hz => h d hd (fun s hs => ?_) fun v hv => ?_
  · simpa [form, held] using hz _ (Finset.mem_toLeft.mp hs)
  · simpa [form] using hz _ (Finset.mem_toRight.mp hv)

theorem Determines.needed {needed : Finset (Finset V ⊕ V)} (h : Determines E a b K needed)
    (hspare : ∀ i ∈ needed, ¬ Determines E a b K (needed.erase i)) :
    Needed K E a b needed.toLeft := by
  intro s hs parts hparts hnot
  by_contra hsame
  push Not at hsame
  refine hspare _ (Finset.mem_toLeft.mp hs) fun d hd hsets hverts => h d hd (fun t ht => ?_)
    fun v hv => hverts v ?_
  · by_cases hts : t = s
    · -- the set is around the same edges as the others are together
      subst hts
      calc held E a b d t = ∑ e ∈ E, around a b parts e * d e := by
            rw [held_eq]
            exact Finset.sum_congr rfl fun e he => by rw [hsame e he]
        _ = ∑ r ∈ parts, held E a b d r := (sum_held E a b d parts).symm
        _ = 0 := by
            refine Finset.sum_eq_zero fun r hr => hsets r ?_
            rw [Finset.mem_toLeft, Finset.mem_erase]
            refine ⟨fun heq => hnot ?_, Finset.mem_toLeft.mp (hparts hr)⟩
            rwa [← Sum.inl.inj heq]
    · refine hsets t ?_
      rw [Finset.mem_toLeft, Finset.mem_erase]
      exact ⟨fun heq => hts (Sum.inl.inj heq), Finset.mem_toLeft.mp ht⟩
  · rw [Finset.mem_toRight, Finset.mem_erase]
    exact ⟨Sum.inr_ne_inl, Finset.mem_toRight.mp hv⟩

theorem Determines.erase_vertex {needed : Finset (Finset V ⊕ V)} {parts : Finset (Finset V)} {v : V}
    (h : Determines E a b K needed) (hparts : parts ⊆ needed.toLeft) (hv : v ∈ needed.toRight)
    (hfull : ∀ e ∈ E, around a b parts e = (1 : K) ∧ touched a b needed.toRight e = (2 : K)) :
    Determines E a b K (needed.erase (.inr v)) := by
  intro d hd hsets hverts
  have hheld (s : Finset V) (hs : s ∈ needed.toLeft) : held E a b d s = 0 := by
    refine hsets s ?_
    rw [Finset.mem_toLeft, Finset.mem_erase]
    exact ⟨Sum.inl_ne_inr, Finset.mem_toLeft.mp hs⟩
  have hother (u : V) (hu : u ∈ needed.toRight) (huv : u ≠ v) :
      ∑ e ∈ E with a e = u ∨ b e = u, d e = 0 := by
    refine hverts u ?_
    rw [Finset.mem_toRight, Finset.mem_erase]
    exact ⟨fun heq => huv (Sum.inr.inj heq), Finset.mem_toRight.mp hu⟩
  have hsum : ∑ e ∈ E, d e = 0 := by
    calc ∑ e ∈ E, d e = ∑ e ∈ E, around a b parts e * d e :=
          Finset.sum_congr rfl fun e he => by rw [(hfull e he).1, one_mul]
      _ = ∑ s ∈ parts, held E a b d s := (sum_held E a b d parts).symm
      _ = 0 := Finset.sum_eq_zero fun s hs => hheld s (hparts hs)
  have hlast : ∑ e ∈ E with a e = v ∨ b e = v, d e = 0 := by
    calc ∑ e ∈ E with a e = v ∨ b e = v, d e
        = ∑ u ∈ needed.toRight, ∑ e ∈ E with a e = u ∨ b e = u, d e :=
          (Finset.sum_eq_single_of_mem v hv hother).symm
      _ = ∑ e ∈ E, touched a b needed.toRight e * d e := sum_touching E a b d _
      _ = 2 * ∑ e ∈ E, d e := by
          rw [Finset.mul_sum]
          exact Finset.sum_congr rfl fun e he => by rw [(hfull e he).2]
      _ = 0 := by rw [hsum, mul_zero]
  refine h d hd hheld fun u hu => ?_
  by_cases huv : u = v
  · exact huv ▸ hlast
  · exact hother u hu huv

/-- Nested sets that hold whole numbers, and vertices at which two or more is left over of the
fractions, do not determine the changes of the edges. -/
theorem not_determines (hE : E.Nonempty) (hopen : ∀ e ∈ E, 0 < x e ∧ x e < 1)
    (hlam : Laminar id nested) (hwhole : ∀ s ∈ nested, ∃ n : ℤ, held E a b x s = n)
    (hends : ∀ v ∈ ends, 2 ≤ ∑ e ∈ E with a e = v ∨ b e = v, (1 - x e)) :
    ¬ Determines E a b K (nested.disjSum ends) := by
  intro hall
  obtain ⟨needed, hsub, hdet, hspare⟩ := exists_needed hall
  have hleft : needed.toLeft ⊆ nested := fun s hs =>
    Finset.inl_mem_disjSum.mp (hsub (Finset.mem_toLeft.mp hs))
  have hright : needed.toRight ⊆ ends := fun v hv =>
    Finset.inr_mem_disjSum.mp (hsub (Finset.mem_toRight.mp hv))
  obtain ⟨parts, hparts, hfull⟩ := full_of_card_le hopen
    (fun s hs t ht => hlam s (hleft hs) t (hleft ht)) (fun s hs => hwhole s (hleft hs))
    (hdet.needed hspare) (fun v hv => hends v (hright hv)) hdet.card_le
  obtain ⟨e, he⟩ := hE
  obtain ⟨v, hv⟩ : needed.toRight.Nonempty := by
    by_contra hno
    have htwo := (hfull e he).2
    rw [Finset.not_nonempty_iff_eq_empty.mp hno, touched, Finset.sum_empty] at htwo
    exact two_ne_zero htwo.symm
  exact hspare _ (Finset.mem_toRight.mp hv) (hdet.erase_vertex hparts hv hfull)

/-- Where no set holds more than one less than it has members, some change of the open edges goes
unnoticed by every set that holds just as much and at every vertex where the fractions leave two or
more over. -/
theorem exists_unseen (hE : E.Nonempty) (hEC : E ⊆ C) (hforest : Forestlike C a b x vs)
    (hopen : ∀ e ∈ E, 0 < x e ∧ x e < 1) (hclosed : ∀ e ∈ C, e ∉ E → x e = 0 ∨ x e = 1)
    (hends : ∀ v ∈ ends, 2 ≤ ∑ e ∈ E with a e = v ∨ b e = v, (1 - x e)) :
    ∃ d : α → K, d ≠ 0 ∧ (∀ e ∉ E, d e = 0) ∧ (∀ s, Tight C a b x vs s → held C a b d s = 0) ∧
      ∀ v ∈ ends, ∑ e ∈ E with a e = v ∨ b e = v, d e = 0 := by
  have h0 : ∀ e ∈ C, 0 ≤ x e := by
    intro e he
    by_cases heE : e ∈ E
    · exact (hopen e heE).1.le
    · rcases hclosed e he heE with hx | hx <;> rw [hx]
      exact zero_le_one
  obtain ⟨nested, hlam, htight, hspan⟩ := exists_laminar_tight hforest h0
  by_contra hno
  refine not_determines hE hopen hlam (fun s hs => (htight s hs).exists_int hEC hclosed) hends
    fun d hd hsets hverts => by_contra fun hne => hno ⟨d, hne, hd, ?_, ?_⟩
  · refine hspan d (fun e _ hx => hd e fun he => (hopen e he).1.ne' hx) fun s hs => ?_
    rw [held, sum_filter_of_support _ hEC hd]
    exact hsets s (Finset.mem_toLeft.mpr (Finset.inl_mem_disjSum.mpr hs))
  · intro v hv
    exact hverts v (Finset.mem_toRight.mpr (Finset.inr_mem_disjSum.mpr hv))

end Counting

end LPRounding
