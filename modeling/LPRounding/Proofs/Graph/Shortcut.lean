import LPRounding.Proofs.Graph.Distance

/-!
Shortcuts. Contracting pairs of vertices gives all vertices their distances in the complete graph of
the first metric with a free edge for each pair. A contraction looks at two detours only; that is
enough, because the distances that it starts from are those of shortest trips already.
-/

namespace LPRounding.Metric

set_option linter.unusedSectionVars false

variable {K : Type} [Field K] [LinearOrder K] [IsStrictOrderedRing K] [FloorRing K]

/-- Distances between `n` vertices, some of them infinite: none from a vertex to itself, the same
both ways, and no detour is shorter. -/
structure Weak (m : Metric K) (n : Nat) : Prop where
  size : m.size = n
  square : ∀ row ∈ m.rows, row.size = n
  zero : ∀ i < n, m.far i i = 0
  symm : ∀ i < n, ∀ j < n, m.far i j = m.far j i
  triangle : ∀ i < n, ∀ j < n, ∀ k < n, m.far i j ≤ m.far i k + m.far k j

/-- Ways in the complete graph of a metric, with free edges between given pairs, and their costs. -/
inductive Trip (m : Metric K) (n : Nat) (free : List (Nat × Nat)) (i : Nat) :
    Nat → WithTop K → Prop where
  | nil : Trip m n free i i 0
  | edge {k j : Nat} {c : WithTop K} : Trip m n free i k c → j < n →
      Trip m n free i j (c + m.far k j)
  | jump {k j : Nat} {c : WithTop K} : Trip m n free i k c → Adjacent free k j →
      Trip m n free i j c

structure Shortest (m : Metric K) (n : Nat) (free : List (Nat × Nat)) (m' : Metric K) : Prop where
  size : m'.size = n
  square : ∀ row ∈ m'.rows, row.size = n
  attained : ∀ i < n, ∀ j < n, Trip m n free i j (m'.far i j)
  least : ∀ i < n, ∀ j < n, ∀ c, Trip m n free i j c → m'.far i j ≤ c

variable {m m' m'' : Metric K} {n : Nat} {free more : List (Nat × Nat)} {i j k s e : Nat}
  {a b c : WithTop K}

theorem Weak.nonneg (h : m.Weak n) (hi : i < n) (hj : j < n) : 0 ≤ m.far i j := by
  have hback : 0 ≤ m.far i j + m.far i j := by
    calc (0 : WithTop K) = m.far i i := (h.zero i hi).symm
      _ ≤ m.far i j + m.far j i := h.triangle i hi i hi j hj
      _ = m.far i j + m.far i j := by rw [h.symm j hj i hi]
  cases hd : m.far i j with
  | top => exact le_top
  | coe x =>
    rw [hd, ← WithTop.coe_add, ← WithTop.coe_zero, WithTop.coe_le_coe] at hback
    rw [← WithTop.coe_zero, WithTop.coe_le_coe]
    linarith

theorem far_inj {d d' : Distance K} (h : d.far = d'.far) : d = d' := by
  cases d <;> cases d' <;> simp_all

theorem eq_of_far (hs : m.size = n) (hs' : m'.size = n) (hrows : ∀ row ∈ m.rows, row.size = n)
    (hrows' : ∀ row ∈ m'.rows, row.size = n) (h : ∀ i < n, ∀ j < n, m.far i j = m'.far i j) :
    m = m' := by
  obtain ⟨rows⟩ := m
  obtain ⟨rows'⟩ := m'
  have hs : rows.size = n := hs
  have hs' : rows'.size = n := hs'
  congr 1
  refine Array.ext (hs.trans hs'.symm) fun i hi hi' => ?_
  have hr := hrows _ (Array.getElem_mem hi)
  have hr' := hrows' _ (Array.getElem_mem hi')
  refine Array.ext (hr.trans hr'.symm) fun j hj hj' => ?_
  have hd := far_inj (h i (hs ▸ hi) j (hr ▸ hj))
  simpa [dist, hi, hi', hj, hj'] using hd

theorem square_tabulate (f : Nat → Nat → Distance K) :
    ∀ row ∈ (tabulate n f).rows, row.size = n := by
  simp [tabulate]

theorem Trip.of_eq (h : Trip m n free i j a) (hab : a = b) : Trip m n free i j b := hab ▸ h

theorem Trip.lt (h : Trip m n free i j c) (hi : i < n) (hb : Bounded n free) : j < n := by
  induction h with
  | nil => exact hi
  | edge _ hj _ => exact hj
  | jump _ hadj _ =>
    rcases hadj with hm | hm
    · exact (hb _ hm).2
    · exact (hb _ hm).1

theorem Trip.trans (h : Trip m n free i k a) (h' : Trip m n free k j b) :
    Trip m n free i j (a + b) := by
  induction h' with
  | nil => exact h.of_eq (add_zero a).symm
  | edge _ hj ih => exact (ih.edge hj).of_eq (add_assoc _ _ _)
  | jump _ hadj ih => exact ih.jump hadj

theorem Trip.symm (h : Trip m n free i j c) (hm : m.Weak n) (hi : i < n) (hb : Bounded n free) :
    Trip m n free j i c := by
  induction h with
  | nil => exact .nil
  | @edge k j c h hj ih =>
    have hk : k < n := h.lt hi hb
    have hback : Trip m n free j k (m.far k j) :=
      (Trip.nil.edge hk).of_eq (by rw [zero_add, hm.symm j hj k hk])
    exact (hback.trans ih).of_eq (add_comm _ _)
  | jump h hadj ih => exact ((Trip.nil.jump hadj.symm).trans ih).of_eq (zero_add _)

theorem Trip.mono (h : Trip m n free i j c) (hsub : ∀ k l, Adjacent free k l → Adjacent more k l) :
    Trip m n more i j c := by
  induction h with
  | nil => exact .nil
  | edge _ hj ih => exact ih.edge hj
  | jump _ hadj ih => exact ih.jump (hsub _ _ hadj)

theorem Trip.le {D : Nat → WithTop K} (h : Trip m n free i j c) (hi : i < n) (hb : Bounded n free)
    (hstart : D i ≤ 0) (hedge : ∀ k < n, ∀ l < n, D l ≤ D k + m.far k l)
    (hjump : ∀ k l, Adjacent free k l → D l ≤ D k) : D j ≤ c := by
  induction h with
  | nil => exact hstart
  | edge h hj ih => exact (hedge _ (h.lt hi hb) _ hj).trans (add_le_add_left ih _)
  | jump _ hadj ih => exact (hjump _ _ hadj).trans ih

theorem Weak.shortest (h : m.Weak n) : Shortest m n [] m := by
  refine ⟨h.size, h.square, fun i hi j hj => ?_, fun i hi j hj c hc => ?_⟩
  · exact (Trip.nil.edge hj).of_eq (zero_add _)
  · refine hc.le hi (by simp [Bounded]) (h.zero i hi).le ?_ ?_
    · intro k hk l hl
      exact h.triangle i hi l hl k hk
    · intro k l hadj
      simp [Adjacent] at hadj

theorem Shortest.le (h : Shortest m n free m') (hi : i < n) (hj : j < n) :
    m'.far i j ≤ m.far i j :=
  h.least i hi j hj _ ((Trip.nil.edge hj).of_eq (zero_add _))

theorem Shortest.weak (h : Shortest m n free m') (hm : m.Weak n) (hb : Bounded n free) :
    m'.Weak n := by
  have hle {i j : Nat} (hi : i < n) (hj : j < n) : m'.far i j ≤ m'.far j i :=
    h.least i hi j hj _ ((h.attained j hj i hi).symm hm hj hb)
  refine ⟨h.size, h.square, fun i hi => ?_, fun i hi j hj => (hle hi hj).antisymm (hle hj hi), ?_⟩
  · refine le_antisymm (h.least i hi i hi 0 .nil) ?_
    exact (h.attained i hi i hi).le (D := fun _ => 0) hi hb le_rfl
      (fun k hk l hl => by simpa using hm.nonneg hk hl) fun _ _ _ => le_rfl
  · intro i hi j hj k hk
    exact h.least i hi j hj _ ((h.attained i hi k hk).trans (h.attained k hk j hj))

theorem Shortest.far_eq_zero (h : Shortest m n free m') (hm : m.Weak n) (hb : Bounded n free)
    (hadj : Adjacent free i j) : m'.far i j = 0 := by
  have hij : i < n ∧ j < n := by
    rcases hadj with hmem | hmem
    · exact hb _ hmem
    · exact (hb _ hmem).symm
  exact le_antisymm (h.least i hij.1 j hij.2 0 (Trip.nil.jump hadj))
    ((h.weak hm hb).nonneg hij.1 hij.2)

/-- There is one matrix of shortest trips, however the pairs are listed. -/
theorem Shortest.unique (h : Shortest m n free m') (h' : Shortest m n more m'')
    (hsame : ∀ k l, Adjacent free k l ↔ Adjacent more k l) : m' = m'' := by
  refine eq_of_far h.size h'.size h.square h'.square fun i hi j hj => le_antisymm ?_ ?_
  · exact h.least i hi j hj _ ((h'.attained i hi j hj).mono fun k l => (hsame k l).mpr)
  · exact h'.least i hi j hj _ ((h.attained i hi j hj).mono fun k l => (hsame k l).mp)

theorem Shortest.congr (h : Shortest m n free m')
    (hsame : ∀ k l, Adjacent free k l ↔ Adjacent more k l) : Shortest m n more m' :=
  ⟨h.size, h.square, fun i hi j hj => (h.attained i hi j hj).mono fun k l => (hsame k l).mp,
    fun i hi j hj c hc => h.least i hi j hj c (hc.mono fun k l => (hsame k l).mpr)⟩

theorem far_contract_le (hm : m.size = n) (hi : i < n) (hj : j < n) :
    (m.contract s e).far i j ≤ m.far i j ∧
      (m.contract s e).far i j ≤ m.far i s + m.far e j ∧
      (m.contract s e).far i j ≤ m.far i e + m.far s j := by
  rw [far_contract (hm ▸ hi) (hm ▸ hj)]
  exact ⟨min_le_left _ _, (min_le_right _ _).trans (min_le_left _ _),
    (min_le_right _ _).trans (min_le_right _ _)⟩

theorem far_contract_cases (hm : m.size = n) (hi : i < n) (hj : j < n) :
    (m.contract s e).far i j = m.far i j ∨
      (m.contract s e).far i j = m.far i s + m.far e j ∨
      (m.contract s e).far i j = m.far i e + m.far s j := by
  rw [far_contract (hm ▸ hi) (hm ▸ hj)]
  rcases min_choice (m.far i j) (min (m.far i s + m.far e j) (m.far i e + m.far s j)) with h | h
  · exact .inl h
  · rw [h]
    exact .inr (min_choice _ _)

theorem Weak.far_contract_ends (h : m.Weak n) (hs : s < n) (he : e < n) (hi : i < n) :
    (m.contract s e).far i e ≤ (m.contract s e).far i s ∧
      (m.contract s e).far i s ≤ (m.contract s e).far i e := by
  obtain ⟨hdirect, hover, -⟩ := far_contract_le (s := s) (e := e) h.size hi he
  obtain ⟨hdirect', -, hover'⟩ := far_contract_le (s := s) (e := e) h.size hi hs
  rw [h.zero e he, add_zero] at hover
  rw [h.zero s hs, add_zero] at hover'
  constructor
  · rcases far_contract_cases (s := s) (e := e) h.size hi hs with hd | hd | hd <;> rw [hd]
    · exact hover
    · exact hover.trans (le_add_of_nonneg_right (h.nonneg he hs))
    · exact hdirect.trans (le_add_of_nonneg_right (h.nonneg hs hs))
  · rcases far_contract_cases (s := s) (e := e) h.size hi he with hd | hd | hd <;> rw [hd]
    · exact hover'
    · exact hdirect'.trans (le_add_of_nonneg_right (h.nonneg he he))
    · exact hover'.trans (le_add_of_nonneg_right (h.nonneg hs he))

theorem far_contract_step (hm : m.size = n) (hs : s < n) (he : e < n) (hi : i < n) (hj : j < n)
    (hk : k < n) (hstep : ∀ x < n, m.far x j ≤ m.far x k + c) :
    (m.contract s e).far i j ≤ (m.contract s e).far i k + c := by
  obtain ⟨hdirect, hse, hes⟩ := far_contract_le (s := s) (e := e) hm hi hj
  rcases far_contract_cases (s := s) (e := e) hm hi hk with hd | hd | hd <;> rw [hd]
  · exact hdirect.trans (hstep i hi)
  · rw [add_assoc]
    exact hse.trans (add_le_add_right (hstep e he) _)
  · rw [add_assoc]
    exact hes.trans (add_le_add_right (hstep s hs) _)

/-- A contraction makes one more pair free. -/
theorem Shortest.contract (h : Shortest m n free m') (hm : m.Weak n) (hb : Bounded n free)
    (hs : s < n) (he : e < n) : Shortest m n ((s, e) :: free) (m'.contract s e) := by
  have hweak := h.weak hm hb
  have hold : ∀ k l, Adjacent free k l → Adjacent ((s, e) :: free) k l :=
    fun k l => Adjacent.mono (List.subset_cons_self _ _)
  have hnew : Adjacent ((s, e) :: free) s e := .inl List.mem_cons_self
  have hbound : Bounded n ((s, e) :: free) := List.forall_mem_cons.mpr ⟨⟨hs, he⟩, hb⟩
  have hsize : (m'.contract s e).size = n := by
    rw [Metric.contract, size_tabulate, h.size]
  refine ⟨hsize, ?_, fun i hi j hj => ?_, fun i hi j hj c hc => ?_⟩
  · rw [← h.size]
    exact square_tabulate _
  · have htrip {x y : Nat} (hx : x < n) (hy : y < n) :
        Trip m n ((s, e) :: free) x y (m'.far x y) := (h.attained x hx y hy).mono hold
    rcases far_contract_cases (s := s) (e := e) h.size hi hj with hd | hd | hd <;> rw [hd]
    · exact htrip hi hj
    · exact ((htrip hi hs).jump hnew).trans (htrip he hj)
    · exact ((htrip hi he).jump hnew.symm).trans (htrip hs hj)
  · refine hc.le (D := (m'.contract s e).far i) hi hbound ?_ ?_ ?_
    · exact (far_contract_le h.size hi hi).1.trans (hweak.zero i hi).le
    · intro k hk l hl
      refine far_contract_step h.size hs he hi hl hk fun x hx => ?_
      exact (hweak.triangle x hx l hl k hk).trans (add_le_add_right (h.le hk hl) _)
    · intro k l hadj
      have hends := hweak.far_contract_ends hs he hi
      by_cases hfree : Adjacent free k l
      · -- a pair that was free before costs nothing between any two vertices
        have hkl : k < n ∧ l < n := by
          rcases hfree with hmem | hmem
          · exact hb _ hmem
          · exact (hb _ hmem).symm
        have hz := h.far_eq_zero hm hb hfree
        have hstep := far_contract_step (c := 0) h.size hs he hi hkl.2 hkl.1 fun x hx =>
          hz ▸ hweak.triangle x hx l hkl.2 k hkl.1
        simpa using hstep
      · rcases hadj with hmem | hmem <;> rcases List.mem_cons.mp hmem with heq | hmem
        · obtain ⟨rfl, rfl⟩ := Prod.mk.inj heq
          exact hends.1
        · exact absurd (.inl hmem) hfree
        · obtain ⟨rfl, rfl⟩ := Prod.mk.inj heq
          exact hends.2
        · exact absurd (.inr hmem) hfree

end LPRounding.Metric
