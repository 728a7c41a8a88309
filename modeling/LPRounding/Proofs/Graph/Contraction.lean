import LPRounding.Proofs.Graph.Joined
import LPRounding.Proofs.Graph.Distance

/-!
Contracted distances. A path in a contracted metric jumps between vertices that are joined already;
what it costs pays for pairs at their first distances that, with those jumps, join its ends.
-/

namespace LPRounding

set_option linter.unusedSectionVars false

section Payable

variable {V M : Type} [AddCommMonoid M]

def outlay (d : V → V → M) (pairs : List (V × V)) : M := (pairs.map fun e => d e.1 e.2).sum

@[simp] theorem outlay_nil (d : V → V → M) : outlay d [] = 0 := rfl

@[simp] theorem outlay_cons (d : V → V → M) (e : V × V) (pairs : List (V × V)) :
    outlay d (e :: pairs) = d e.1 e.2 + outlay d pairs := rfl

@[simp] theorem outlay_append (d : V → V → M) (pairs more : List (V × V)) :
    outlay d (pairs ++ more) = outlay d pairs + outlay d more := by
  simp [outlay]

variable [PartialOrder M] [IsOrderedAddMonoid M]

/-- With what is free, two vertices can be joined for at most `a` by pairs of them and hubs. -/
def Payable (d : V → V → M) (hubs : List V) (free : List (V × V)) (u v : V) (a : M) : Prop :=
  ∃ es, Joined (es ++ free) u v ∧ outlay d es ≤ a ∧
    ∀ e ∈ es, e.1 ∈ u :: v :: hubs ∧ e.2 ∈ u :: v :: hubs

variable {d : V → V → M} {hubs : List V} {free more : List (V × V)} {u v s e : V} {a b : M}

theorem joined_widen (hs : free ⊆ more) {es : List (V × V)} (h : Joined (es ++ free) u v) :
    Joined (es ++ more) u v :=
  h.mono (List.append_subset.mpr
    ⟨List.subset_append_left _ _, List.subset_append_of_subset_right _ hs⟩)

theorem payable_direct : Payable d hubs free u v (d u v) := by
  refine ⟨[(u, v)], .single (.inl List.mem_cons_self), by simp, fun p hp => ?_⟩
  obtain rfl := List.mem_singleton.mp hp
  simp

theorem Payable.mono (h : Payable d hubs free u v a) (hs : free ⊆ more) :
    Payable d hubs more u v a := by
  obtain ⟨es, hj, hcost, hends⟩ := h
  exact ⟨es, joined_widen hs hj, hcost, hends⟩

theorem Payable.through (h : Payable d hubs free u s a) (h' : Payable d hubs free e v b)
    (hs : s ∈ hubs) (he : e ∈ hubs) (hse : Joined free s e) :
    Payable d hubs free u v (a + b) := by
  obtain ⟨es, hj, hcost, hends⟩ := h
  obtain ⟨fs, hj', hcost', hends'⟩ := h'
  refine ⟨es ++ fs, ?_, ?_, fun p hp => ?_⟩
  · rw [List.append_assoc]
    have hfree : free ⊆ fs ++ free := List.subset_append_right _ _
    have hall : fs ++ free ⊆ es ++ (fs ++ free) := List.subset_append_right _ _
    exact ((joined_widen hfree hj).trans ((hse.mono hfree).mono hall)).trans (hj'.mono hall)
  · rw [outlay_append]
    exact add_le_add hcost hcost'
  · have hleft {w : V} (hw : w ∈ u :: s :: hubs) : w ∈ u :: v :: hubs := by
      rcases List.mem_cons.mp hw with rfl | hw
      · simp
      rcases List.mem_cons.mp hw with rfl | hw
      · simp [hs]
      · simp [hw]
    have hright {w : V} (hw : w ∈ e :: v :: hubs) : w ∈ u :: v :: hubs := by
      rcases List.mem_cons.mp hw with rfl | hw
      · simp [he]
      · exact List.mem_cons_of_mem _ hw
    rcases List.mem_append.mp hp with hp | hp
    · exact ⟨hleft (hends p hp).1, hleft (hends p hp).2⟩
    · exact ⟨hright (hends' p hp).1, hright (hends' p hp).2⟩

theorem exists_payment {f : V → V → M} {vs : List V} (hhubs : hubs ⊆ vs) {ps : List (V × V)}
    (hps : ∀ p ∈ ps, p.1 ∈ vs ∧ p.2 ∈ vs)
    (h : ∀ p ∈ ps, Payable d hubs free p.1 p.2 (f p.1 p.2)) :
    ∃ es, (∀ p ∈ ps, Joined (es ++ free) p.1 p.2) ∧ outlay d es ≤ outlay f ps ∧
      ∀ e ∈ es, e.1 ∈ vs ∧ e.2 ∈ vs := by
  induction ps with
  | nil => exact ⟨[], by simp, le_rfl, by simp⟩
  | cons p ps ih =>
    obtain ⟨hp, hps⟩ := List.forall_mem_cons.mp hps
    obtain ⟨⟨es, hj, hcost, hends⟩, h⟩ := List.forall_mem_cons.mp h
    obtain ⟨fs, hj', hcost', hends'⟩ := ih hps h
    have hvs : p.1 :: p.2 :: hubs ⊆ vs :=
      List.cons_subset.mpr ⟨hp.1, List.cons_subset.mpr ⟨hp.2, hhubs⟩⟩
    refine ⟨es ++ fs, ?_, ?_, ?_⟩
    · rw [List.append_assoc]
      exact List.forall_mem_cons.mpr ⟨joined_widen (List.subset_append_right _ _) hj,
        fun q hq => (hj' q hq).mono (List.subset_append_right _ _)⟩
    · rw [outlay_append, outlay_cons]
      exact add_le_add hcost hcost'
    · intro e he
      rcases List.mem_append.mp he with he | he
      · exact ⟨hvs (hends e he).1, hvs (hends e he).2⟩
      · exact hends' e he

end Payable

namespace Metric

variable {V K : Type} [Field K] [LinearOrder K] [IsStrictOrderedRing K] [FloorRing K]

def between (m : Metric K) (place : V → Nat) (u v : V) : WithTop K := m.far (place u) (place v)

/-- Pairs of the vertices connect them for at most `c`. -/
def Spans (m : Metric K) (place : V → Nat) (vs : List V) (c : WithTop K) : Prop :=
  ∃ es, Connected vs es ∧ (∀ e ∈ es, e.1 ∈ vs ∧ e.2 ∈ vs) ∧ outlay (m.between place) es ≤ c

/-- Pairs of the vertices, one less than there are of these, connect them and cost `c` together. -/
def Frames (m : Metric K) (place : V → Nat) (vs : List V) (c : WithTop K) : Prop :=
  ∃ es, Connected vs es ∧ (∀ e ∈ es, e.1 ∈ vs ∧ e.2 ∈ vs) ∧ outlay (m.between place) es = c ∧
    es.length + 1 = vs.length

theorem Frames.perm {m : Metric K} {place : V → Nat} {vs ws : List V} {c : WithTop K}
    (h : m.Frames place vs c) (hp : vs.Perm ws) : m.Frames place ws c := by
  obtain ⟨es, hconn, hends, hcost, hlength⟩ := h
  exact ⟨es, fun u hu v hv => hconn u (hp.mem_iff.mpr hu) v (hp.mem_iff.mpr hv),
    fun e he => ⟨hp.mem_iff.mp (hends e he).1, hp.mem_iff.mp (hends e he).2⟩, hcost,
    hlength.trans hp.length_eq⟩

theorem Frames.spans {m : Metric K} {place : V → Nat} {vs : List V} {c : WithTop K}
    (h : m.Frames place vs c) : m.Spans place vs c := by
  obtain ⟨es, hconn, hends, hcost, -⟩ := h
  exact ⟨es, hconn, hends, hcost.le⟩

theorem Spans.congr {m : Metric K} {place : V → Nat} {vs ws : List V} {c : WithTop K}
    (h : m.Spans place vs c) (hmem : ∀ v, v ∈ vs ↔ v ∈ ws) : m.Spans place ws c := by
  obtain ⟨es, hconn, hends, hcost⟩ := h
  exact ⟨es, fun u hu v hv => hconn u ((hmem u).mpr hu) v ((hmem v).mpr hv),
    fun e he => ⟨(hmem _).mp (hends e he).1, (hmem _).mp (hends e he).2⟩, hcost⟩

/-- Distances between the vertices `vs` that became shorter, but only by jumps that are free. -/
structure Shortened (place : V → Nat) (vs hubs : List V) (free : List (V × V))
    (m₀ m : Metric K) : Prop where
  size : m.size = m₀.size
  le : ∀ u ∈ vs, ∀ v ∈ vs, m.between place u v ≤ m₀.between place u v
  payable : ∀ u ∈ vs, ∀ v ∈ vs, Payable (m₀.between place) hubs free u v (m.between place u v)

variable {place : V → Nat} {vs hubs : List V} {free more : List (V × V)} {m₀ m : Metric K}
  {s e : V}

theorem shortened_refl (m : Metric K) : Shortened place vs hubs free m m :=
  ⟨rfl, fun _ _ _ _ => le_rfl, fun _ _ _ _ => payable_direct⟩

theorem Shortened.mono (h : Shortened place vs hubs free m₀ m) (hs : free ⊆ more) :
    Shortened place vs hubs more m₀ m :=
  ⟨h.size, h.le, fun u hu v hv => (h.payable u hu v hv).mono hs⟩

/-- Contracting two hubs that are joined makes distances shorter by a free jump. -/
theorem Shortened.contract (h : Shortened place vs hubs free m₀ m) (hhubs : hubs ⊆ vs)
    (hplace : ∀ v ∈ vs, place v < m₀.size) (hs : s ∈ hubs) (he : e ∈ hubs)
    (hse : Joined free s e) :
    Shortened place vs hubs free m₀ (m.contract (place s) (place e)) := by
  have hfar {u v : V} (hu : u ∈ vs) (hv : v ∈ vs) :
      (m.contract (place s) (place e)).between place u v =
        min (m.between place u v) (min (m.between place u s + m.between place e v)
          (m.between place u e + m.between place s v)) :=
    far_contract (h.size ▸ hplace u hu) (h.size ▸ hplace v hv)
  refine ⟨by rw [Metric.contract, size_tabulate, h.size], ?_, ?_⟩
  · intro u hu v hv
    rw [hfar hu hv]
    exact (min_le_left _ _).trans (h.le u hu v hv)
  · intro u hu v hv
    rw [hfar hu hv]
    rcases min_choice (m.between place u v) (min (m.between place u s + m.between place e v)
        (m.between place u e + m.between place s v)) with hm | hm
    · rw [hm]
      exact h.payable u hu v hv
    rw [hm]
    rcases min_choice (m.between place u s + m.between place e v)
        (m.between place u e + m.between place s v) with hm | hm <;> rw [hm]
    · exact (h.payable u hu s (hhubs hs)).through (h.payable e (hhubs he) v hv) hs he hse
    · exact (h.payable u hu e (hhubs he)).through (h.payable s (hhubs hs) v hv) he hs hse.symm

end Metric

end LPRounding
