import LPRounding.Proofs.LP.Polyhedron
import LPRounding.Proofs.Flow.Checked

/-!
Every network has a maximum flow. The amounts that are lost nowhere on the way are a linear space,
and the rooms of the arcs are limits on it that no direction keeps for ever.
-/

namespace LPRounding

set_option linter.unusedSectionVars false

variable {V K : Type} [DecidableEq V] [Field K] [LinearOrder K] [IsStrictOrderedRing K]
  [FloorRing K]

namespace Network

variable {n : Network V K} {s t : V} {f : Flow K}

/-- Amounts between the vertices that are sent one way as they are received the other, and are
neither made nor lost between the ends. -/
def balanced (n : Network V K) (s t : V) : Submodule K (V → V → K) where
  carrier := {f | (∀ u v, f u v = -f v u) ∧ (∀ u v, u ∉ n.vertices → f u v = 0) ∧
    ∀ u ∈ n.vertices, u ≠ s → u ≠ t → ∑ v ∈ n.vertices.toFinset, f u v = 0}
  add_mem' := by
    rintro f g ⟨hf, hf', hf''⟩ ⟨hg, hg', hg''⟩
    refine ⟨fun u v => ?_, fun u v hu => ?_, fun u hu hs ht => ?_⟩
    · rw [Pi.add_apply, Pi.add_apply, Pi.add_apply, Pi.add_apply, hf, hg, neg_add]
    · rw [Pi.add_apply, Pi.add_apply, hf' u v hu, hg' u v hu, add_zero]
    · simp only [Pi.add_apply, Finset.sum_add_distrib, hf'' u hu hs ht, hg'' u hu hs ht, add_zero]
  zero_mem' := ⟨fun _ _ => neg_zero.symm, fun _ _ _ => rfl, fun _ _ _ _ => Finset.sum_const_zero⟩
  smul_mem' := by
    rintro c f ⟨hf, hf', hf''⟩
    refine ⟨fun u v => ?_, fun u v hu => ?_, fun u hu hs ht => ?_⟩
    · rw [Pi.smul_apply, Pi.smul_apply, Pi.smul_apply, Pi.smul_apply, hf, smul_neg]
    · rw [Pi.smul_apply, Pi.smul_apply, hf' u v hu, smul_zero]
    · simp only [Pi.smul_apply, ← Finset.smul_sum, hf'' u hu hs ht, smul_zero]

def sends (u v : V) : n.balanced s t →ₗ[K] K where
  toFun f := f.1 u v
  map_add' _ _ := rfl
  map_smul' _ _ := rfl

def rooms (n : Network V K) (s t : V) :
    Polyhedron K (n.balanced s t) (n.vertices.toFinset × n.vertices.toFinset) where
  form e := sends e.1.1 e.2.1
  limit e := n.room e.1.1 e.2.1

theorem rayless_rooms (n : Network V K) (s t : V) : (n.rooms s t).Rayless := by
  rintro ⟨d, hskew, hout, hsum⟩ hd
  have hle {u v : V} (hu : u ∈ n.vertices) (hv : v ∈ n.vertices) : d u v ≤ 0 :=
    hd ⟨⟨u, List.mem_toFinset.mpr hu⟩, ⟨v, List.mem_toFinset.mpr hv⟩⟩
  refine Subtype.ext (funext fun u => funext fun v => ?_)
  show d u v = 0
  by_cases hu : u ∈ n.vertices
  · by_cases hv : v ∈ n.vertices
    · have := hle hv hu
      rw [hskew] at this
      exact le_antisymm (hle hu hv) (by linarith)
    · rw [hskew, hout v u hv, neg_zero]
  · exact hout u v hu

theorem Carries.exists_balanced (h : n.Carries s t f) (hs : s ∈ n.vertices) :
    ∃ x : n.balanced s t, (n.rooms s t).Holds x ∧
      ∑ v ∈ n.vertices.toFinset, sends s v x = f.value := by
  let amount (u v : V) : K := if u ∈ n.vertices ∧ v ∈ n.vertices then n.sent f u v else 0
  have hamount {u v : V} (hu : u ∈ n.vertices) (hv : v ∈ n.vertices) : amount u v = n.sent f u v :=
    if_pos ⟨hu, hv⟩
  have hsum {u : V} (hu : u ∈ n.vertices) : ∑ v ∈ n.vertices.toFinset, amount u v =
      ∑ v ∈ n.vertices.toFinset, n.sent f u v :=
    Finset.sum_congr rfl fun v hv => hamount hu (List.mem_toFinset.mp hv)
  refine ⟨⟨amount, fun u v => ?_, fun u v hu => if_neg fun h => hu h.1, fun u hu hs ht => ?_⟩,
    ?_, ?_⟩
  · by_cases hu : u ∈ n.vertices <;> by_cases hv : v ∈ n.vertices <;> simp only [amount, hu, hv]
    · simpa using h.skew u hu v hv
    all_goals simp
  · rw [hsum hu]
    exact h.conserved u hu hs ht
  · rintro ⟨⟨u, hu⟩, ⟨v, hv⟩⟩
    have hu := List.mem_toFinset.mp hu
    have hv := List.mem_toFinset.mp hv
    exact (hamount hu hv).trans_le (h.within u hu v hv)
  · exact (hsum hs).trans h.value

theorem carries_of_balanced {x : n.balanced s t} (h : (n.rooms s t).Holds x) (hs : s ∈ n.vertices) :
    n.Carries s t (n.flowOf (∑ v ∈ n.vertices.toFinset, sends s v x) x.1) := by
  have hsum {u : V} (hu : u ∈ n.vertices) : ∑ v ∈ n.vertices.toFinset, n.sent
      (n.flowOf (∑ v ∈ n.vertices.toFinset, sends s v x) x.1) u v =
      ∑ v ∈ n.vertices.toFinset, x.1 u v :=
    Finset.sum_congr rfl fun v hv => sent_flowOf hu (List.mem_toFinset.mp hv)
  refine ⟨fun u hu v hv => ?_, fun u hu v hv => ?_, fun u hu hus hut => ?_, hsum hs⟩
  · rw [sent_flowOf hu hv, sent_flowOf hv hu]
    exact x.2.1 u v
  · rw [sent_flowOf hu hv]
    exact h ⟨⟨u, List.mem_toFinset.mpr hu⟩, ⟨v, List.mem_toFinset.mpr hv⟩⟩
  · rw [hsum hu]
    exact x.2.2.2 u hu hus hut

theorem exists_maximum (n : Network V K) {s t : V} (hs : s ∈ n.vertices) :
    ∃ f, n.Maximum s t f := by
  obtain ⟨still, hstill, -⟩ := (n.integral_still s t).1.exists_balanced hs
  obtain ⟨x, hx, hmost⟩ := Polyhedron.exists_cheapest_vertex (n.rayless_rooms s t) ⟨still, hstill⟩
    (-∑ v ∈ n.vertices.toFinset, sends s v)
  refine ⟨_, carries_of_balanced hx.holds hs, fun g hg => ?_⟩
  obtain ⟨y, hy, hvalue⟩ := hg.exists_balanced hs
  have hle := hmost y hy
  simp only [LinearMap.neg_apply, LinearMap.sum_apply, neg_le_neg_iff] at hle
  exact hvalue ▸ hle

/-- What a maximum flow leaves within reach of the source is a side of a cut. -/
theorem Maximum.separates (h : n.Maximum s t f) (hv : n.Valid) (hst : s ≠ t) (hs : s ∈ n.vertices)
    {tolerance : K} (htol : 0 ≤ tolerance) :
    s ∈ n.reachable f tolerance (n.place s) ∧ t ∉ n.reachable f tolerance (n.place s) := by
  rw [h.1.mem_reachable hv htol hs, h.1.mem_reachable hv htol hs]
  refine ⟨⟨hs, .refl⟩, fun ht => h.not_residual hst hs ?_⟩
  have hmono : Residual n f tolerance ≤ Residual n f 0 :=
    fun a b hab => ⟨hab.1, hab.2.1, htol.trans_lt hab.2.2⟩
  exact Relation.ReflTransGen.mono hmono _ _ ht.2

end Network

namespace FlowFinder

/-- What is found is a maximum flow. -/
def Maximal (find : FlowFinder V K) : Prop :=
  ∀ n s t, Asked n s t → n.Maximum s t (find n (n.place s) (n.place t))

theorem Maximal.sound {find : FlowFinder V K} (h : find.Maximal) : find.Sound :=
  fun n s t ha => (h n s t ha).1

open Classical in
/-- Uses a guess where a cut shows that it is maximum, and else some maximum flow. -/
noncomputable def largest (guess : FlowFinder V K) : FlowFinder V K := fun n i j =>
  match n.vertices[i]?, n.vertices[j]? with
  | some s, some t =>
    if n.Certified s t (guess n i j) then guess n i j
    else if h : ∃ f, n.Maximum s t f then h.choose else Network.still
  | _, _ => Network.still

theorem largest_maximal (guess : FlowFinder V K) : guess.largest.Maximal := by
  rintro n s t ⟨-, hs, ht, -, -⟩
  have hi : n.vertices[n.place s]? = some s := List.getElem?_idxOf hs
  have hj : n.vertices[n.place t]? = some t := List.getElem?_idxOf ht
  simp only [largest, hi, hj]
  split
  · next h =>
    obtain ⟨hc, hsub, hsn, htn, hvalue, -⟩ := h
    exact hc.maximum hsub hsn htn hvalue
  · have hex := n.exists_maximum (t := t) hs
    rw [dif_pos hex]
    exact hex.choose_spec

end FlowFinder

end LPRounding
