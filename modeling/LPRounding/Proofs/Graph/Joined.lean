import Mathlib

/-!
Vertices that pairs join, each pair taken in both directions. A list of pairs may repeat a pair and
may hold a loop.
-/

namespace LPRounding

variable {V : Type}

def Adjacent (pairs : List (V × V)) (u v : V) : Prop := (u, v) ∈ pairs ∨ (v, u) ∈ pairs

def Joined (pairs : List (V × V)) : V → V → Prop := Relation.ReflTransGen (Adjacent pairs)

def Connected (vertices : List V) (pairs : List (V × V)) : Prop :=
  ∀ u ∈ vertices, ∀ v ∈ vertices, Joined pairs u v

/-- No pair joins what the others join already. -/
def Acyclic (pairs : List (V × V)) : Prop :=
  ∀ (i : Nat) u v, pairs[i]? = some (u, v) → ¬ Joined (pairs.eraseIdx i) u v

variable {pairs more : List (V × V)} {u v w : V}

theorem Adjacent.symm (h : Adjacent pairs u v) : Adjacent pairs v u := Or.symm h

theorem Adjacent.mono (hs : pairs ⊆ more) (h : Adjacent pairs u v) : Adjacent more u v := by
  rcases h with h | h
  · exact .inl (hs h)
  · exact .inr (hs h)

theorem Adjacent.joined (h : Adjacent pairs u v) : Joined pairs u v := .single h

theorem Joined.symm (h : Joined pairs u v) : Joined pairs v u := by
  induction h with
  | refl => exact .refl
  | tail _ hb ih => exact .head hb.symm ih

theorem Joined.of_adjacent (hs : ∀ a b, Adjacent pairs a b → Joined more a b)
    (h : Joined pairs u v) : Joined more u v := by
  induction h with
  | refl => exact .refl
  | tail _ hb ih => exact ih.trans (hs _ _ hb)

theorem Joined.mono (hs : pairs ⊆ more) (h : Joined pairs u v) : Joined more u v :=
  h.of_adjacent fun _ _ hab => (hab.mono hs).joined

theorem joined_nil : Joined ([] : List (V × V)) u v ↔ u = v := by
  constructor
  · intro h
    rcases Relation.ReflTransGen.cases_head h with rfl | ⟨w, hw, -⟩
    · rfl
    · simp [Adjacent] at hw
  · rintro rfl
    exact .refl

theorem Joined.map {W : Type} (f : V → W) (h : Joined pairs u v) :
    Joined (pairs.map (Prod.map f f)) (f u) (f v) := by
  induction h with
  | refl => exact .refl
  | tail _ hab ih => exact ih.tail (hab.imp (List.mem_map_of_mem ·) (List.mem_map_of_mem ·))

theorem Acyclic.of_cons {e : V × V} (h : Acyclic (e :: pairs)) : Acyclic pairs := by
  intro i u v hi hj
  exact h (i + 1) u v hi (hj.mono (List.subset_cons_self _ _))

theorem Connected.eraseIdx {vertices : List V} {i : Nat} (h : Connected vertices pairs)
    (hi : pairs[i]? = some (u, v)) (hj : Joined (pairs.eraseIdx i) u v) :
    Connected vertices (pairs.eraseIdx i) := by
  have hmem {e : V × V} (he : e ∈ pairs) : e ∈ pairs.eraseIdx i ∨ e = (u, v) := by
    obtain ⟨k, hk, rfl⟩ := List.getElem_of_mem he
    by_cases hki : k = i
    · subst hki
      exact .inr (Option.some.inj ((List.getElem?_eq_getElem hk).symm.trans hi))
    · exact .inl (List.mem_eraseIdx_iff_getElem.mpr ⟨k, hk, hki, rfl⟩)
  intro a ha b hb
  refine (h a ha b hb).of_adjacent fun c d hcd => ?_
  rcases hcd with hm | hm
  · rcases hmem hm with h' | heq
    · exact .single (.inl h')
    · obtain ⟨rfl, rfl⟩ := Prod.mk.inj heq
      exact hj
  · rcases hmem hm with h' | heq
    · exact .single (.inr h')
    · obtain ⟨rfl, rfl⟩ := Prod.mk.inj heq
      exact hj.symm

theorem Connected.exists_acyclic {α : Type} {f : α → V × V} {vertices : List V} {es : List α}
    (h : Connected vertices (es.map f)) :
    ∃ ts : List α, ts.Sublist es ∧ Connected vertices (ts.map f) ∧ Acyclic (ts.map f) := by
  induction hn : es.length generalizing es with
  | zero =>
    obtain rfl := List.length_eq_zero_iff.mp hn
    exact ⟨[], .slnil, h, fun i u v hi => by simp at hi⟩
  | succ n ih =>
    by_cases hcycle : ∃ i u v, (es.map f)[i]? = some (u, v) ∧ Joined ((es.map f).eraseIdx i) u v
    · obtain ⟨i, u, v, hi, hj⟩ := hcycle
      have herase := h.eraseIdx hi hj
      have hlt : i < es.length := by simpa using (List.getElem?_eq_some_iff.mp hi).1
      rw [List.eraseIdx_map] at herase
      obtain ⟨ts, hsub, hts⟩ := ih herase (by rw [List.length_eraseIdx_of_lt hlt, hn]; rfl)
      exact ⟨ts, hsub.trans (List.eraseIdx_sublist _ _), hts⟩
    · exact ⟨es, .refl es, h, fun i u v hi hj => hcycle ⟨i, u, v, hi, hj⟩⟩

theorem joined_cons {a b : V} : Joined ((a, b) :: pairs) u v ↔
    Joined pairs u v ∨ (Joined pairs u a ∧ Joined pairs b v) ∨
      (Joined pairs u b ∧ Joined pairs a v) := by
  constructor
  · intro h
    induction h with
    | refl => exact .inl .refl
    | @tail c d _ hcd ih =>
      have hstep : Joined pairs c d ∨ (c = a ∧ d = b) ∨ (c = b ∧ d = a) := by
        rcases hcd with h | h <;> rcases List.mem_cons.mp h with heq | h
        · exact .inr (.inl (Prod.mk.inj heq))
        · exact .inl (.single (.inl h))
        · exact .inr (.inr (Prod.mk.inj heq).symm)
        · exact .inl (.single (.inr h))
      rcases hstep with hj | ⟨rfl, rfl⟩ | ⟨rfl, rfl⟩
      · rcases ih with h | ⟨h, h'⟩ | ⟨h, h'⟩
        · exact .inl (h.trans hj)
        · exact .inr (.inl ⟨h, h'.trans hj⟩)
        · exact .inr (.inr ⟨h, h'.trans hj⟩)
      · rcases ih with h | ⟨h, h'⟩ | ⟨h, h'⟩
        · exact .inr (.inl ⟨h, .refl⟩)
        · exact .inr (.inl ⟨h, .refl⟩)
        · exact .inl h
      · rcases ih with h | ⟨h, h'⟩ | ⟨h, h'⟩
        · exact .inr (.inr ⟨h, .refl⟩)
        · exact .inl h
        · exact .inr (.inr ⟨h, .refl⟩)
  · have hsub : pairs ⊆ (a, b) :: pairs := List.subset_cons_self _ _
    have hab : Joined ((a, b) :: pairs) a b := .single (.inl List.mem_cons_self)
    rintro (h | ⟨h, h'⟩ | ⟨h, h'⟩)
    · exact h.mono hsub
    · exact ((h.mono hsub).trans hab).trans (h'.mono hsub)
    · exact ((h.mono hsub).trans hab.symm).trans (h'.mono hsub)

theorem acyclic_nil : Acyclic ([] : List (V × V)) := fun i u v hi => by simp at hi

theorem acyclic_cons {a b : V} : Acyclic ((a, b) :: pairs) ↔ Acyclic pairs ∧ ¬ Joined pairs a b := by
  refine ⟨fun h => ⟨h.of_cons, h 0 a b rfl⟩, fun ⟨h, hab⟩ i u v hi hj => ?_⟩
  cases i with
  | zero =>
    obtain ⟨rfl, rfl⟩ := Prod.mk.inj (Option.some.inj hi)
    exact hab hj
  | succ i =>
    have hsub : pairs.eraseIdx i ⊆ pairs := (List.eraseIdx_sublist _ _).subset
    have huv : Joined pairs u v := .single (.inl (List.mem_of_getElem? hi))
    -- were `u` and `v` joined over the new pair, they would join its ends
    rcases joined_cons.mp hj with hj | ⟨h₁, h₂⟩ | ⟨h₁, h₂⟩
    · exact h i u v hi hj
    · exact hab (((h₁.mono hsub).symm.trans huv).trans (h₂.mono hsub).symm)
    · exact hab (((h₂.mono hsub).trans huv.symm).trans (h₁.mono hsub))

theorem Acyclic.nodup (h : Acyclic pairs) : pairs.Nodup := by
  induction pairs with
  | nil => exact .nil
  | cons e pairs ih =>
    refine List.nodup_cons.mpr ⟨fun he => ?_, ih h.of_cons⟩
    exact (acyclic_cons.mp h).2 (Adjacent.joined (.inl he))

theorem Joined.perm (hp : pairs.Perm more) (h : Joined pairs u v) : Joined more u v :=
  h.mono hp.subset

theorem Acyclic.perm (hp : pairs.Perm more) (h : Acyclic pairs) : Acyclic more := by
  induction hp with
  | nil => exact h
  | @cons e l l' hl ih =>
    obtain ⟨h, he⟩ := acyclic_cons.mp h
    exact acyclic_cons.mpr ⟨ih h, fun hj => he (hj.perm hl.symm)⟩
  | swap d e l =>
    obtain ⟨h, he⟩ := acyclic_cons.mp h
    obtain ⟨h, hd⟩ := acyclic_cons.mp h
    have hde : ¬ Joined l e.1 e.2 := fun hj => he (hj.mono (List.subset_cons_self _ _))
    refine acyclic_cons.mpr ⟨acyclic_cons.mpr ⟨h, hde⟩, fun hj => ?_⟩
    rcases joined_cons.mp hj with hj | ⟨h₁, h₂⟩ | ⟨h₁, h₂⟩
    · exact hd hj
    · exact he (joined_cons.mpr (.inr (.inl ⟨h₁.symm, h₂.symm⟩)))
    · exact he (joined_cons.mpr (.inr (.inr ⟨h₂, h₁⟩)))
  | trans _ _ ih₁ ih₂ => exact ih₂ (ih₁ h)

theorem Joined.of_cons {e : V × V} (h : Joined (e :: pairs) u v) (hs : pairs ⊆ more)
    (he : Joined more e.1 e.2) : Joined more u v := by
  refine h.of_adjacent fun a b hab => ?_
  rcases hab with hm | hm <;> rcases List.mem_cons.mp hm with rfl | hm
  · exact he
  · exact .single (.inl (hs hm))
  · exact he.symm
  · exact .single (.inr (hs hm))

theorem Joined.exchange {e : V × V} (h : Joined (e :: pairs) u v) (hn : ¬ Joined pairs u v) :
    Joined ((u, v) :: pairs) e.1 e.2 := by
  have hsub : pairs ⊆ (u, v) :: pairs := List.subset_cons_self _ _
  have huv : Joined ((u, v) :: pairs) u v := .single (.inl List.mem_cons_self)
  rcases joined_cons.mp h with h | ⟨h₁, h₂⟩ | ⟨h₁, h₂⟩
  · exact absurd h hn
  · exact ((h₁.mono hsub).symm.trans huv).trans (h₂.mono hsub).symm
  · exact ((h₂.mono hsub).trans huv.symm).trans (h₁.mono hsub)

theorem Acyclic.exists_needed {α : Type} {f : α → V × V} {es : List α}
    (h : Acyclic (es.map f ++ pairs)) (hj : Joined (es.map f ++ pairs) u v)
    (hn : ¬ Joined pairs u v) :
    ∃ e rest, es.Perm (e :: rest) ∧ ¬ Joined (rest.map f ++ pairs) u v := by
  induction es with
  | nil => exact absurd hj hn
  | cons e es ih =>
    by_cases hes : Joined (es.map f ++ pairs) u v
    · obtain ⟨d, rest, hp, hd⟩ := ih h.of_cons hes
      refine ⟨d, e :: rest, (hp.cons e).trans (.swap d e rest), fun he => ?_⟩
      -- were `e` to join `u` and `v` as `d` does, the two would close a cycle
      have hpe : (es.map f ++ pairs).Perm (f d :: (rest.map f ++ pairs)) :=
        (hp.map f).append_right pairs
      have hswap : Joined ((u, v) :: (rest.map f ++ pairs)) (f e).1 (f e).2 := he.exchange hd
      have hcycle : Joined (f d :: (rest.map f ++ pairs)) (f e).1 (f e).2 :=
        hswap.of_cons (List.subset_cons_self _ _) (hes.perm hpe)
      exact (acyclic_cons.mp h).2 (hcycle.perm hpe.symm)
    · exact ⟨e, es, .refl _, hes⟩

theorem Joined.exists_crossing (h : Joined pairs u v) {side : V → Bool} (huv : side u ≠ side v) :
    ∃ p ∈ pairs, side p.1 ≠ side p.2 := by
  by_contra hno
  push Not at hno
  have hstep {a b : V} (hab : Adjacent pairs a b) : side a = side b := by
    rcases hab with hm | hm
    · exact hno _ hm
    · exact (hno _ hm).symm
  have hside {w : V} (hw : Joined pairs u w) : side u = side w := by
    induction hw with
    | refl => rfl
    | tail _ hab ih => exact ih.trans (hstep hab)
  exact huv (hside h)

section Counting

variable [DecidableEq V]

theorem exists_unjoined (vs : Finset V) (pairs : List (V × V)) :
    ∃ reps ⊆ vs, (∀ x ∈ reps, ∀ y ∈ reps, Joined pairs x y → x = y) ∧
      vs.card ≤ reps.card + pairs.length := by
  induction pairs with
  | nil => exact ⟨vs, subset_rfl, fun x _ y _ h => joined_nil.mp h, le_rfl⟩
  | cons p pairs ih =>
    obtain ⟨a, b⟩ := p
    obtain ⟨reps, hsub, hun, hcard⟩ := ih
    rw [List.length_cons]
    by_cases hmerge : ∃ x ∈ reps, ∃ y ∈ reps, x ≠ y ∧ Joined pairs x a ∧ Joined pairs y b
    · obtain ⟨x, hx, y, hy, hne, hxa, hyb⟩ := hmerge
      refine ⟨reps.erase y, (reps.erase_subset y).trans hsub, ?_, ?_⟩
      · -- whatever the pair joins to `y` was joined to it before
        intro c hc d hd hj
        obtain ⟨hcy, hc⟩ := Finset.mem_erase.mp hc
        obtain ⟨hdy, hd⟩ := Finset.mem_erase.mp hd
        rcases joined_cons.mp hj with h | ⟨-, h⟩ | ⟨h, -⟩
        · exact hun c hc d hd h
        · exact absurd (hun y hy d hd (hyb.trans h)).symm hdy
        · exact absurd (hun c hc y hy (h.trans hyb.symm)) hcy
      · rw [Finset.card_erase_of_mem hy]
        omega
    · refine ⟨reps, hsub, ?_, by omega⟩
      intro c hc d hd hj
      by_contra hne
      rcases joined_cons.mp hj with h | ⟨h, h'⟩ | ⟨h, h'⟩
      · exact hne (hun c hc d hd h)
      · exact hmerge ⟨c, hc, d, hd, hne, h, h'.symm⟩
      · exact hmerge ⟨d, hd, c, hc, Ne.symm hne, h'.symm, h⟩

theorem Connected.length_le {vertices : List V} (h : Connected vertices pairs)
    (hn : vertices.Nodup) : vertices.length ≤ pairs.length + 1 := by
  obtain ⟨reps, hsub, hun, hcard⟩ := exists_unjoined vertices.toFinset pairs
  have hone : reps.card ≤ 1 := by
    refine Finset.card_le_one.mpr fun x hx y hy => ?_
    exact hun x hx y hy (h x (List.mem_toFinset.mp (hsub hx)) y (List.mem_toFinset.mp (hsub hy)))
  rw [List.toFinset_card_of_nodup hn] at hcard
  omega

theorem Connected.acyclic {vertices : List V} (h : Connected vertices pairs)
    (hn : vertices.Nodup) (hl : pairs.length + 1 = vertices.length) : Acyclic pairs := by
  intro i u v hi hj
  have hlt := (List.getElem?_eq_some_iff.mp hi).1
  have hle := (h.eraseIdx hi hj).length_le hn
  rw [List.length_eraseIdx_of_lt hlt] at hle
  omega

def enclosed (set : Finset V) (pairs : List (V × V)) : Nat :=
  pairs.countP fun e => e.1 ∈ set ∧ e.2 ∈ set

theorem Acyclic.enclosed_lt {set : Finset V} (h : Acyclic pairs) (hne : set.Nonempty) :
    enclosed set pairs < set.card := by
  have hparts : ∃ reps ⊆ set, (∀ v ∈ set, ∃ r ∈ reps, Joined pairs v r) ∧
      reps.card + enclosed set pairs ≤ set.card := by
    induction pairs with
    | nil => exact ⟨set, subset_rfl, fun v hv => ⟨v, hv, .refl⟩, by simp [enclosed]⟩
    | cons e pairs ih =>
      obtain ⟨a, b⟩ := e
      obtain ⟨reps, hsub, hreps, hcard⟩ := ih h.of_cons
      have hmore : pairs ⊆ (a, b) :: pairs := List.subset_cons_self _ _
      by_cases hin : a ∈ set ∧ b ∈ set
      · obtain ⟨x, hx, hax⟩ := hreps a hin.1
        obtain ⟨y, hy, hby⟩ := hreps b hin.2
        have hxy : x ≠ y := by
          rintro rfl
          exact h 0 a b rfl (hax.trans hby.symm)
        refine ⟨reps.erase y, (reps.erase_subset y).trans hsub, fun v hv => ?_, ?_⟩
        · obtain ⟨r, hr, hvr⟩ := hreps v hv
          by_cases hry : r = y
          · -- what was joined to `y` is joined to `x` over the new pair
            subst hry
            have hba : Joined ((a, b) :: pairs) b a := .single (.inr List.mem_cons_self)
            have hvb : Joined pairs v b := hvr.trans hby.symm
            exact ⟨x, Finset.mem_erase.mpr ⟨hxy, hx⟩,
              ((hvb.mono hmore).trans hba).trans (hax.mono hmore)⟩
          · exact ⟨r, Finset.mem_erase.mpr ⟨hry, hr⟩, hvr.mono hmore⟩
        · have hpos : 0 < reps.card := Finset.card_pos.mpr ⟨y, hy⟩
          have hone : enclosed set ((a, b) :: pairs) = enclosed set pairs + 1 := by
            simp [enclosed, hin]
          rw [Finset.card_erase_of_mem hy, hone]
          omega
      · have hsame : enclosed set ((a, b) :: pairs) = enclosed set pairs := by
          simp [enclosed, hin]
        refine ⟨reps, hsub, fun v hv => ?_, hsame ▸ hcard⟩
        obtain ⟨r, hr, hvr⟩ := hreps v hv
        exact ⟨r, hr, hvr.mono hmore⟩
  obtain ⟨reps, -, hreps, hcard⟩ := hparts
  obtain ⟨v, hv⟩ := hne
  obtain ⟨r, hr, -⟩ := hreps v hv
  have hpos : 0 < reps.card := Finset.card_pos.mpr ⟨r, hr⟩
  omega

/-- A tree has one pair less than vertices. -/
theorem Connected.length_of_acyclic {vertices : List V} (h : Connected vertices pairs)
    (ha : Acyclic pairs) (hn : vertices.Nodup) (hne : vertices ≠ [])
    (hends : ∀ e ∈ pairs, e.1 ∈ vertices ∧ e.2 ∈ vertices) :
    pairs.length + 1 = vertices.length := by
  have hall : enclosed vertices.toFinset pairs = pairs.length := by
    rw [enclosed, List.countP_eq_length]
    intro e he
    simpa using hends e he
  have hlt := ha.enclosed_lt (List.toFinset_nonempty_iff vertices |>.mpr hne)
  have hle := h.length_le hn
  rw [hall, List.toFinset_card_of_nodup hn] at hlt
  omega

/-- Where no set holds as many pairs as it has vertices, as many pairs as a tree has connect all. -/
theorem connected_of_sparse {vertices : List V} (hn : vertices.Nodup)
    (hends : ∀ e ∈ pairs, e.1 ∈ vertices ∧ e.2 ∈ vertices)
    (hl : pairs.length + 1 = vertices.length)
    (hsparse : ∀ set ⊆ vertices.toFinset, set.Nonempty → enclosed set pairs < set.card) :
    Connected vertices pairs := by
  classical
  intro u hu v hv
  by_contra huv
  let near := vertices.toFinset.filter fun w => Joined pairs u w
  let far := vertices.toFinset.filter fun w => ¬ Joined pairs u w
  have hu : u ∈ near := Finset.mem_filter.mpr ⟨List.mem_toFinset.mpr hu, .refl⟩
  have hv : v ∈ far := Finset.mem_filter.mpr ⟨List.mem_toFinset.mpr hv, huv⟩
  have hnear : enclosed near pairs < near.card := hsparse near (Finset.filter_subset _ _) ⟨u, hu⟩
  have hfar : enclosed far pairs < far.card := hsparse far (Finset.filter_subset _ _) ⟨v, hv⟩
  have hcard : near.card + far.card = vertices.length := by
    rw [← List.toFinset_card_of_nodup hn]
    exact Finset.card_filter_add_card_filter_not _
  -- a pair joins its ends, so both are near or both are far
  have hsplit : pairs.length ≤ enclosed near pairs + enclosed far pairs := by
    rw [List.length_eq_countP_add_countP fun e => e.1 ∈ near ∧ e.2 ∈ near]
    refine Nat.add_le_add_left (List.countP_mono_left fun e he hno => ?_) _
    obtain ⟨ha, hb⟩ := hends e he
    have hjoin : Joined pairs e.1 e.2 := Adjacent.joined (.inl he)
    have hiff : Joined pairs u e.1 ↔ Joined pairs u e.2 :=
      ⟨fun h => h.trans hjoin, fun h => h.trans hjoin.symm⟩
    by_cases hj : Joined pairs u e.1
    · simp [near, ha, hb, hj, hiff.mp hj] at hno
    · simp [far, ha, hb, hj, hiff.not.mp hj]
  omega

end Counting

end LPRounding
