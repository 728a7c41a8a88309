import LPRounding.Proofs.Flow.Integral
import LPRounding.Flow.Augment

/-!
Flow finders whose answers are checked. What a guess gets wrong is not used.
-/

namespace LPRounding

set_option linter.unusedSectionVars false

variable {V K : Type} [DecidableEq V] [Field K] [LinearOrder K] [IsStrictOrderedRing K]
  [FloorRing K]

namespace Network

variable {n : Network V K} {s t : V} {f : Flow K}

instance : Decidable (n.Carries s t f) :=
  decidable_of_iff
    ((∀ u ∈ n.vertices, ∀ v ∈ n.vertices, n.sent f u v = -n.sent f v u) ∧
      (∀ u ∈ n.vertices, ∀ v ∈ n.vertices, n.sent f u v ≤ n.room u v) ∧
      (∀ u ∈ n.vertices, u ≠ s → u ≠ t → ∑ v ∈ n.vertices.toFinset, n.sent f u v = 0) ∧
      ∑ v ∈ n.vertices.toFinset, n.sent f s v = f.value)
    ⟨fun h => ⟨h.1, h.2.1, h.2.2.1, h.2.2.2⟩, fun h => ⟨h.skew, h.within, h.conserved, h.value⟩⟩

instance (a : K) : Decidable (∃ k : ℤ, a = k) :=
  decidable_of_iff ((⌊a⌋ : K) = a)
    ⟨fun h => ⟨⌊a⌋, h.symm⟩, by rintro ⟨k, rfl⟩; rw [Int.floor_intCast]⟩

instance (amount : V → V → K) : Decidable (n.Whole amount) :=
  inferInstanceAs (Decidable (∀ u ∈ n.vertices, ∀ v ∈ n.vertices, ∃ k : ℤ, amount u v = k))

def still : Flow K where
  value := 0
  net _ _ := 0

theorem integral_still (n : Network V K) (s t : V) : n.Integral s t still := by
  refine ⟨⟨?_, ?_, ?_, ?_⟩, fun _ _ _ _ => ⟨0, by simp [sent, still]⟩⟩
  · simp [sent, still]
  · intro u _ v _
    exact n.room_nonneg u v
  · simp [sent, still]
  · simp [sent, still]

/-- A flow that fills the cut around what it leaves within reach, and is whole where it can be. -/
def Certified (n : Network V K) (s t : V) (f : Flow K) : Prop :=
  let near := (n.reachable f 0 (n.place s)).toFinset
  n.Carries s t f ∧ near ⊆ n.vertices.toFinset ∧ s ∈ near ∧ t ∉ near ∧
    f.value = n.cutRoom near ∧ (n.Whole n.room → n.Whole (n.sent f))

instance : Decidable (n.Certified s t f) := by
  unfold Certified
  infer_instance

end Network

namespace FlowFinder

def checked (guess : FlowFinder V K) : FlowFinder V K := fun n i j =>
  match n.vertices[i]?, n.vertices[j]? with
  | some s, some t => if n.Carries s t (guess n i j) then guess n i j else Network.still
  | _, _ => Network.still

theorem checked_sound (guess : FlowFinder V K) : guess.checked.Sound := by
  rintro n s t ⟨-, hs, ht, -, -⟩
  have hi : n.vertices[n.place s]? = some s := List.getElem?_idxOf hs
  have hj : n.vertices[n.place t]? = some t := List.getElem?_idxOf ht
  simp only [checked, hi, hj]
  split
  · next h => exact h
  · exact (n.integral_still s t).1

open Classical in
/-- Uses a guess where a cut certifies it, and else some maximum flow. -/
noncomputable def certified (guess : FlowFinder V K) : FlowFinder V K := fun n i j =>
  match n.vertices[i]?, n.vertices[j]? with
  | some s, some t =>
    if n.Certified s t (guess n i j) then guess n i j
    else if h : ∃ f, n.Maximum s t f ∧ n.Whole (n.sent f) then h.choose else Network.still
  | _, _ => Network.still

theorem certified_sound (guess : FlowFinder V K) : guess.certified.Sound := by
  rintro n s t ⟨-, hs, ht, -, -⟩
  have hi : n.vertices[n.place s]? = some s := List.getElem?_idxOf hs
  have hj : n.vertices[n.place t]? = some t := List.getElem?_idxOf ht
  simp only [certified, hi, hj]
  split
  · next h => exact h.1
  · split
    · next hex => exact hex.choose_spec.1.1
    · exact (n.integral_still s t).1

theorem certified_exact (guess : FlowFinder V K) : guess.certified.Exact := by
  rintro n s t ⟨-, hs, ht, hst, -⟩ hn
  have hi : n.vertices[n.place s]? = some s := List.getElem?_idxOf hs
  have hj : n.vertices[n.place t]? = some t := List.getElem?_idxOf ht
  simp only [certified, hi, hj]
  split
  · next h =>
    obtain ⟨hc, hsub, hsn, htn, hvalue, hwhole⟩ := h
    exact ⟨hc.maximum hsub hsn htn hvalue, hwhole hn⟩
  · have hex := Network.exists_integral_maximum hn hs hst (n.integral_still s t)
    rw [dif_pos hex]
    exact hex.choose_spec

end FlowFinder

end LPRounding
