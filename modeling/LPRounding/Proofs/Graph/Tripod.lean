import LPRounding.Proofs.Graph.Contraction

/-!
Tripods. Whatever pairs join three vertices, the legs from some vertex to the three cost no more: a
pair that the others can do without only adds to the cost, and one that they need leaves two of the
vertices on one side, whose tripod gets a longer third leg.
-/

namespace LPRounding

set_option linter.unusedSectionVars false

variable {V M : Type} [AddCommMonoid M] [PartialOrder M] [IsOrderedAddMonoid M]

structure Metrical (d : V → V → M) (vs : List V) : Prop where
  nonneg : ∀ u ∈ vs, ∀ v ∈ vs, 0 ≤ d u v
  zero : ∀ u ∈ vs, d u u = 0
  symm : ∀ u ∈ vs, ∀ v ∈ vs, d u v = d v u
  triangle : ∀ u ∈ vs, ∀ v ∈ vs, ∀ w ∈ vs, d u v ≤ d u w + d w v

/-- The legs from some vertex to three that the pairs join cost no more than the pairs. -/
def HasTripods (d : V → V → M) (vs : List V) (pairs : List (V × V)) : Prop :=
  ∀ a ∈ vs, ∀ b ∈ vs, ∀ c ∈ vs, Joined pairs a b → Joined pairs a c →
    ∃ x ∈ vs, d a x + d b x + d c x ≤ outlay d pairs

variable {d : V → V → M} {vs ws : List V} {pairs near far : List (V × V)} {a b c p q u v : V}

theorem Metrical.mono (h : Metrical d vs) (hsub : ws ⊆ vs) : Metrical d ws :=
  ⟨fun u hu v hv => h.nonneg u (hsub hu) v (hsub hv), fun u hu => h.zero u (hsub hu),
    fun u hu v hv => h.symm u (hsub hu) v (hsub hv),
    fun u hu v hv w hw => h.triangle u (hsub hu) v (hsub hv) w (hsub hw)⟩

theorem Joined.filter {side : V → Bool} (h : Joined pairs u v)
    (hclosed : ∀ e ∈ pairs, side e.1 = side e.2) (hu : side u = true) :
    side v = true ∧ Joined (pairs.filter fun e => side e.1) u v := by
  induction h with
  | refl => exact ⟨hu, .refl⟩
  | tail _ hab ih =>
    obtain ⟨ha, hua⟩ := ih
    rcases hab with hm | hm
    · exact ⟨hclosed _ hm ▸ ha, hua.tail (.inl (List.mem_filter.mpr ⟨hm, ha⟩))⟩
    · have hb := (hclosed _ hm).trans ha
      exact ⟨hb, hua.tail (.inr (List.mem_filter.mpr ⟨hm, hb⟩))⟩

theorem outlay_filter (d : V → V → M) (pairs : List (V × V)) (keep : V × V → Bool) :
    outlay d pairs = outlay d (pairs.filter keep) + outlay d (pairs.filter fun e => !keep e) := by
  rw [← outlay_append]
  exact ((List.filter_append_perm keep pairs).map fun e => d e.1 e.2).sum_eq.symm

theorem Metrical.bridge (h : Metrical d vs) (hnear : HasTripods d vs near)
    (hfar : HasTripods d vs far) (hp : p ∈ vs) (hq : q ∈ vs) (ha : a ∈ vs) (hb : b ∈ vs)
    (hc : c ∈ vs) (hpa : Joined near p a) (hpb : Joined near p b) (hqc : Joined far q c) :
    ∃ x ∈ vs, d a x + d b x + d c x ≤ d p q + (outlay d near + outlay d far) := by
  obtain ⟨x, hx, hlegs⟩ := hnear p hp a ha b hb hpa hpb
  obtain ⟨y, hy, hlegs'⟩ := hfar q hq c hc c hc hqc hqc
  have hcq : d c q ≤ outlay d far :=
    calc d c q ≤ d c y + d y q := h.triangle c hc q hq y hy
      _ = d q y + d c y := by rw [h.symm y hy q hq, add_comm]
      _ ≤ d q y + d c y + d c y := le_add_of_nonneg_right (h.nonneg c hc y hy)
      _ ≤ outlay d far := hlegs'
  have hcx : d c x ≤ outlay d far + (d p q + d p x) :=
    calc d c x ≤ d c q + d q x := h.triangle c hc x hx q hq
      _ ≤ d c q + (d q p + d p x) := add_le_add_right (h.triangle q hq x hx p hp) _
      _ = d c q + (d p q + d p x) := by rw [h.symm q hq p hp]
      _ ≤ outlay d far + (d p q + d p x) := add_le_add_left hcq _
  refine ⟨x, hx, ?_⟩
  calc d a x + d b x + d c x
      ≤ d a x + d b x + (outlay d far + (d p q + d p x)) := add_le_add_right hcx _
    _ = d p q + (d p x + d a x + d b x + outlay d far) := by abel
    _ ≤ d p q + (outlay d near + outlay d far) := add_le_add_right (add_le_add_left hlegs _) _

/-- Three vertices that pairs join have a tripod that costs no more than the pairs. -/
theorem Metrical.hasTripods (h : Metrical d vs) (hends : ∀ e ∈ pairs, e.1 ∈ vs ∧ e.2 ∈ vs) :
    HasTripods d vs pairs := by
  induction hn : pairs.length using Nat.strong_induction_on generalizing pairs with
  | _ n ih =>
  subst hn
  intro a ha b hb c hc hab hac
  cases pairs with
  | nil =>
    obtain rfl := joined_nil.mp hab
    obtain rfl := joined_nil.mp hac
    exact ⟨a, ha, by simp [h.zero a ha]⟩
  | cons e rest =>
    obtain ⟨p, q⟩ := e
    obtain ⟨⟨hp, hq⟩, hrest⟩ := List.forall_mem_cons.mp hends
    have hp : p ∈ vs := hp
    have hq : q ∈ vs := hq
    -- without the first pair the cost is no larger
    have hwithout (hab : Joined rest a b) (hac : Joined rest a c) :
        ∃ x ∈ vs, d a x + d b x + d c x ≤ outlay d ((p, q) :: rest) := by
      obtain ⟨x, hx, hle⟩ := ih _ (Nat.lt_succ_self _) hrest rfl a ha b hb c hc hab hac
      exact ⟨x, hx, hle.trans (le_add_of_nonneg_left (h.nonneg p hp q hq))⟩
    by_cases hpq : Joined rest p q
    · exact hwithout (hab.of_cons (List.Subset.refl _) hpq) (hac.of_cons (List.Subset.refl _) hpq)
    classical
    let side (w : V) : Bool := decide (Joined rest p w)
    have hclosed : ∀ e ∈ rest, side e.1 = side e.2 := by
      intro e he
      have hjoin : Joined rest e.1 e.2 := Adjacent.joined (.inl he)
      exact decide_eq_decide.mpr ⟨fun h => h.trans hjoin, fun h => h.trans hjoin.symm⟩
    let other (w : V) : Bool := !side w
    have hclosed' : ∀ e ∈ rest, other e.1 = other e.2 :=
      fun e he => congrArg not (hclosed e he)
    let near := rest.filter fun e => side e.1
    let far := rest.filter fun e => other e.1
    have hpart {keep : V × V → Bool} : HasTripods d vs (rest.filter keep) :=
      ih _ (Nat.lt_succ_of_le (List.length_filter_le _ _))
        (fun e he => hrest e (List.mem_of_mem_filter he)) rfl
    have hnear {w : V} (hw : Joined rest p w) : Joined near p w :=
      (hw.filter hclosed (decide_eq_true .refl)).2
    have hfar {w : V} (hw : Joined rest q w) : Joined far q w := by
      have hq : other q = true := by simpa [other, side] using hpq
      exact (hw.filter hclosed' hq).2
    have hcost : outlay d ((p, q) :: rest) = d p q + (outlay d near + outlay d far) := by
      rw [outlay_cons, outlay_filter d rest fun e => side e.1]
    have hcost' : outlay d ((p, q) :: rest) = d q p + (outlay d far + outlay d near) := by
      rw [hcost, h.symm p hp q hq, add_comm (outlay d near)]
    rcases joined_cons.mp hab with hab | ⟨hpa, hqb⟩ | ⟨hqa, hpb⟩ <;>
      rcases joined_cons.mp hac with hac | ⟨hpa', hqc⟩ | ⟨hqa', hpc⟩
    · exact hwithout hab hac
    · rw [hcost]
      exact h.bridge hpart hpart hp hq ha hb hc (hnear hpa'.symm) (hnear (hpa'.symm.trans hab))
        (hfar hqc)
    · rw [hcost']
      exact h.bridge hpart hpart hq hp ha hb hc (hfar hqa'.symm) (hfar (hqa'.symm.trans hab))
        (hnear hpc)
    · rw [hcost]
      obtain ⟨x, hx, hle⟩ := h.bridge hpart hpart hp hq ha hc hb (hnear hpa.symm)
        (hnear (hpa.symm.trans hac)) (hfar hqb)
      exact ⟨x, hx, (add_right_comm _ _ _).trans_le hle⟩
    · rw [hcost']
      obtain ⟨x, hx, hle⟩ := h.bridge hpart hpart hq hp hb hc ha (hfar hqb) (hfar hqc)
        (hnear hpa.symm)
      exact ⟨x, hx, (add_rotate _ _ _).trans_le hle⟩
    · exact absurd (hpa.symm.trans hqa') hpq
    · rw [hcost']
      obtain ⟨x, hx, hle⟩ := h.bridge hpart hpart hq hp ha hc hb (hfar hqa.symm)
        (hfar (hqa.symm.trans hac)) (hnear hpb)
      exact ⟨x, hx, (add_right_comm _ _ _).trans_le hle⟩
    · exact absurd (hpa'.symm.trans hqa) hpq
    · rw [hcost]
      obtain ⟨x, hx, hle⟩ := h.bridge hpart hpart hp hq hb hc ha (hnear hpb) (hnear hpc)
        (hfar hqa.symm)
      exact ⟨x, hx, (add_rotate _ _ _).trans_le hle⟩

theorem Metrical.le_outlay (h : Metrical d vs) (hends : ∀ e ∈ pairs, e.1 ∈ vs ∧ e.2 ∈ vs)
    (ha : a ∈ vs) (hb : b ∈ vs) (hab : Joined pairs a b) : d a b ≤ outlay d pairs := by
  obtain ⟨x, hx, hle⟩ := h.hasTripods hends a ha b hb b hb hab hab
  calc d a b ≤ d a x + d x b := h.triangle a ha b hb x hx
    _ = d a x + d b x := by rw [h.symm x hx b hb]
    _ ≤ d a x + d b x + d b x := le_add_of_nonneg_right (h.nonneg b hb x hx)
    _ ≤ outlay d pairs := hle

end LPRounding
