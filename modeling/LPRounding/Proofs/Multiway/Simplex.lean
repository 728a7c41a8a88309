import LPRounding.Proofs.Multiway.Terminals
import LPRounding.Proofs.LP.Translation

/-!
The points of an embedding. They put every vertex on the simplex, a colored one at its corner, and
leave the length of an edge along a coordinate to be at least the distance of its ends; where no
weight is negative, the lengths that are the distances cost least.
-/

namespace LPRounding

set_option linter.unusedSectionVars false

variable {K : Type} [Field K] [LinearOrder K] [IsStrictOrderedRing K] [FloorRing K]

def blocks {α β : Type} (xs : List α) (d : Nat) (f : α → Nat → β) : List β :=
  xs.flatMap fun a => (List.range d).map (f a)

section Blocks

variable {α β : Type} {xs : List α} {d : Nat} {f : α → Nat → β}

@[simp] theorem length_blocks : (blocks xs d f).length = xs.length * d := by
  simp [blocks, List.length_flatMap]

theorem getElem?_blocks {i : Nat} (hi : i < d) (e : Nat) :
    (blocks xs d f)[e * d + i]? = xs[e]?.map fun a => f a i := by
  induction xs generalizing e with
  | nil => simp [blocks]
  | cons a xs ih =>
    have hcons : blocks (a :: xs) d f = (List.range d).map (f a) ++ blocks xs d f := rfl
    cases e with
    | zero => simp [hcons, List.getElem?_append_left, hi]
    | succ e =>
      rw [hcons, List.getElem?_append_right (by simp; nlinarith), List.getElem?_cons_succ, ← ih e]
      congr 1
      simp only [List.length_map, List.length_range, Nat.succ_mul]
      omega

end Blocks

theorem weigh_addTo (j : Nat) (c : K) (coefs : List (Nat × K)) (x : List K) :
    weigh (addTo j c coefs) x = weigh coefs x + c * x.getD j 0 := by
  induction coefs with
  | nil => simp [addTo]
  | cons e coefs ih =>
    rw [weigh_eq, weigh_eq] at ih
    rw [addTo]
    split
    · next h =>
      subst h
      simp only [weigh_eq, List.map_cons, List.sum_cons]
      ring
    · simp only [weigh_eq, List.map_cons, List.sum_cons, ih]
      ring

theorem Row.weigh_addCoef (r : Row K) (j : Nat) (c : K) (x : List K) :
    weigh (r.addCoef j c).coefs x = weigh r.coefs x + c * x.getD j 0 :=
  weigh_addTo j c r.coefs x

namespace Embedding

variable {m : Embedding K} {lp : Model K} {x : List K}

/-- A point of the embedding, by what it says of edges and vertices. -/
structure Embeds (m : Embedding K) (x : List K) : Prop where
  length : x.length = m.spans.length * m.dims + m.vertices.length * m.dims
  nonneg : ∀ y ∈ x, 0 ≤ y
  lengths : ∀ e s i, m.spans[e]? = some s → i < m.dims →
    |x.getD (m.pointColumn s.u i) 0 - x.getD (m.pointColumn s.v i) 0| ≤
      x.getD (m.lengthColumn e i) 0
  simplex : ∀ v < m.colors.length, ∑ i ∈ Finset.range m.dims, x.getD (m.pointColumn v i) 0 = 1
  corner : ∀ v c, m.colors[v]? = some c → c ≠ 0 → x.getD (m.pointColumn v (c - 1).toNat) 0 = 1

structure Posed (m : Embedding K) : Prop where
  ends : ∀ s ∈ m.spans, s.u < m.vertices.length ∧ s.v < m.vertices.length
  weights : ∀ s ∈ m.spans, 0 ≤ s.weight
  length : m.colors.length = m.vertices.length
  colors : ∀ c ∈ m.colors, 0 ≤ c ∧ c ≤ m.dims
  dims : 0 < m.dims

theorem length_columns (m : Embedding K) :
    m.columns.length = m.spans.length * m.dims + m.vertices.length * m.dims := by
  simp [columns, List.length_flatMap]

theorem admits_lengthRow {e i : Nat} {s : Span K} {sign : K} :
    (m.lengthRow e s i sign).bound.Admits (weigh (m.lengthRow e s i sign).coefs x) ↔
      0 ≤ x.getD (m.lengthColumn e i) 0 + sign * x.getD (m.pointColumn s.u i) 0 -
        sign * x.getD (m.pointColumn s.v i) 0 := by
  have hweigh : weigh (m.lengthRow e s i sign).coefs x = x.getD (m.lengthColumn e i) 0 +
      sign * x.getD (m.pointColumn s.u i) 0 - sign * x.getD (m.pointColumn s.v i) 0 := by
    rw [lengthRow, Row.weigh_addCoef, Row.weigh_addCoef, Row.weigh_addCoef, weigh_eq,
      List.map_nil, List.sum_nil]
    ring
  rw [← hweigh]
  rfl

theorem admits_unitRow {js : List Nat} :
    (unitRow js : Row K).bound.Admits (weigh (unitRow js : Row K).coefs x) ↔
      (js.map fun j => x.getD j 0).sum = 1 := by
  rw [← weigh_ones]
  rfl

theorem admits_pointRows {v : Nat} {c : Int} {rows : List (Row K)}
    (h : m.pointRows v c = .ok rows) :
    (∀ r ∈ rows, r.relaxed = false → r.bound.Admits (weigh r.coefs x)) ↔
      (c ≠ 0 → x.getD (m.pointColumn v (c - 1).toNat) 0 = 1) ∧
        ∑ i ∈ Finset.range m.dims, x.getD (m.pointColumn v i) 0 = 1 := by
  have hsimplex : (m.simplexRow v).bound.Admits (weigh (m.simplexRow v).coefs x) ↔
      ∑ i ∈ Finset.range m.dims, x.getD (m.pointColumn v i) 0 = 1 := by
    rw [simplexRow, admits_unitRow, List.map_map]
    rfl
  unfold pointRows at h
  split at h
  · next hc =>
    obtain rfl := Except.ok.inj h
    rw [← hsimplex]
    constructor
    · intro hall
      exact ⟨fun hne => absurd hc hne, hall _ (List.mem_singleton_self _) rfl⟩
    · rintro ⟨-, hsum⟩ r hr -
      rwa [List.mem_singleton.mp hr]
  split at h
  · next hc _ =>
    obtain rfl := Except.ok.inj h
    rw [← hsimplex]
    constructor
    · intro hall
      have hcorner := admits_unitRow.mp (hall _ (List.mem_cons_self ..) rfl)
      exact ⟨fun _ => by simpa using hcorner,
        hall _ (List.mem_cons_of_mem _ (List.mem_singleton_self _)) rfl⟩
    · rintro ⟨hcorner, hsum⟩ r hr -
      rcases List.mem_cons.mp hr with rfl | hr
      · exact admits_unitRow.mpr (by simpa using hcorner hc)
      · rwa [List.mem_singleton.mp hr]
  · cases h

theorem mem_rows (h : m.model = .ok lp) {r : Row K} : r ∈ lp.rows ↔
    (∃ e s i sign, m.spans[e]? = some s ∧ i < m.dims ∧ (sign = -1 ∨ sign = 1) ∧
      r = m.lengthRow e s i sign) ∨
    ∃ v c rows, m.colors[v]? = some c ∧ m.pointRows v c = .ok rows ∧ r ∈ rows := by
  unfold model at h
  obtain ⟨points, hpoints, h⟩ := ok_bind_iff.mp h
  obtain rfl := Except.ok.inj h
  rw [List.mem_append]
  refine or_congr ?_ ?_
  · simp only [List.mem_flatMap, lengthRows, List.mem_range]
    constructor
    · rintro ⟨⟨s, e⟩, he, i, hi, hr⟩
      rcases List.mem_cons.mp hr with rfl | hr
      · exact ⟨e, s, i, -1, List.mk_mem_zipIdx_iff_getElem?.mp he, hi, .inl rfl, rfl⟩
      · exact ⟨e, s, i, 1, List.mk_mem_zipIdx_iff_getElem?.mp he, hi, .inr rfl,
          List.mem_singleton.mp hr⟩
    · rintro ⟨e, s, i, sign, he, hi, hsign, rfl⟩
      refine ⟨(s, e), List.mk_mem_zipIdx_iff_getElem?.mpr he, i, hi, ?_⟩
      rcases hsign with rfl | rfl <;> simp
  · rw [List.mem_flatten]
    constructor
    · rintro ⟨rows, hrows, hr⟩
      obtain ⟨⟨c, v⟩, hc, hv⟩ := exists_of_mapM hpoints hrows
      exact ⟨v, c, rows, List.mk_mem_zipIdx_iff_getElem?.mp hc, hv, hr⟩
    · rintro ⟨v, c, rows, hc, hv, hr⟩
      obtain ⟨rows', hmem, hv'⟩ :=
        exists_mem_of_mapM hpoints (List.mk_mem_zipIdx_iff_getElem?.mpr hc)
      obtain rfl := Except.ok.inj (hv.symm.trans hv')
      exact ⟨rows, hmem, hr⟩

theorem Posed.exists_model (k : m.Posed) : ∃ lp, m.model = .ok lp := by
  obtain ⟨points, hpoints⟩ := exists_mapM (fun (e : Int × Nat) => m.pointRows e.2 e.1)
    m.colors.zipIdx fun e he => by
      obtain ⟨c, v⟩ := e
      have hc := k.colors c (List.mem_of_getElem? (List.mk_mem_zipIdx_iff_getElem?.mp he))
      dsimp only [pointRows]
      split
      · exact ⟨_, rfl⟩
      · rw [if_pos (by omega)]
        exact ⟨_, rfl⟩
  exact ⟨_, ok_bind_iff.mpr ⟨points, hpoints, rfl⟩⟩

/-- The points of the model are the embeddings. -/
theorem admits_iff (h : m.model = .ok lp) : lp.Admits x ↔ m.Embeds x := by
  have hcolumns := (model_eq_ok h).1
  have hlength : lp.columns.length = m.spans.length * m.dims + m.vertices.length * m.dims := by
    rw [hcolumns, length_columns]
  constructor
  · intro hx
    have hpoint {v : Nat} {c : Int} (hc : m.colors[v]? = some c) :
        (c ≠ 0 → x.getD (m.pointColumn v (c - 1).toNat) 0 = 1) ∧
          ∑ i ∈ Finset.range m.dims, x.getD (m.pointColumn v i) 0 = 1 := by
      obtain ⟨rows, hrows, hsub⟩ := (model_eq_ok h).2 v c hc
      exact (admits_pointRows hrows).mp fun r hr => hx.rows r (hsub hr)
    refine ⟨hx.length.trans hlength, ?_, fun e s i he hi => ?_, fun v hv => ?_,
      fun v c hc => (hpoint hc).1⟩
    · intro y hy
      obtain ⟨j, hj, rfl⟩ := List.getElem_of_mem hy
      have hlt : j < lp.columns.length := hx.length ▸ hj
      have hmem : lp.columns[j] ∈ m.columns := by
        rw [← hcolumns]
        exact List.getElem_mem hlt
      obtain ⟨cost, hcolumn⟩ := mem_columns hmem
      have hadmits := hx.columns j _ _ (List.getElem?_eq_getElem hlt) (List.getElem?_eq_getElem hj)
      rw [hcolumn] at hadmits
      exact hadmits
    · have hrow (sign : K) (hsign : sign = -1 ∨ sign = 1) := admits_lengthRow.mp
        (hx.rows _ ((mem_rows h).mpr (.inl ⟨e, s, i, sign, he, hi, hsign, rfl⟩)) rfl)
      have hneg := hrow (-1) (.inl rfl)
      have hpos := hrow 1 (.inr rfl)
      rw [abs_le]
      constructor <;> linarith
    · exact (hpoint (List.getElem?_eq_getElem hv)).2
  · intro hx
    refine ⟨hx.length.trans hlength.symm, fun j c y hc hy => ?_, fun r hr hk => ?_⟩
    · obtain ⟨cost, rfl⟩ := mem_columns (hcolumns ▸ List.mem_of_getElem? hc)
      exact hx.nonneg y (List.mem_of_getElem? hy)
    · rcases (mem_rows h).mp hr with ⟨e, s, i, sign, he, hi, hsign, rfl⟩ | ⟨v, c, rows, hc, hrows, hr⟩
      · have hle := abs_le.mp (hx.lengths e s i he hi)
        rw [admits_lengthRow]
        rcases hsign with rfl | rfl <;> linarith [hle.1, hle.2]
      · have hv := (List.getElem?_eq_some_iff.mp hc).1
        exact (admits_pointRows hrows).mpr ⟨hx.corner v c hc, hx.simplex v hv⟩ r hr hk

theorem sum_replicate_zipIdx (c : Column K) (d n : Nat) (y : Nat → K) :
    (((List.replicate d c).zipIdx n).map fun e => e.1.cost * y e.2).sum =
      c.cost * ∑ i ∈ Finset.range d, y (n + i) := by
  induction d generalizing n with
  | zero => simp
  | succ d ih =>
    rw [List.replicate_succ, List.zipIdx_cons, List.map_cons, List.sum_cons, ih,
      Finset.sum_range_succ']
    simp only [Nat.add_zero, Nat.add_comm, Nat.add_left_comm]
    ring

theorem sum_blocks (spans : List (Span K)) (d : Nat) (k : Nat) (y : Nat → K) :
    (((spans.flatMap fun s => List.replicate d (column s.weight)).zipIdx (k * d)).map
      fun e => e.1.cost * y e.2).sum =
      ((spans.zipIdx k).map fun e => e.1.weight * ∑ i ∈ Finset.range d, y (e.2 * d + i)).sum := by
  induction spans generalizing k with
  | nil => simp
  | cons s spans ih =>
    rw [List.flatMap_cons, List.zipIdx_append, List.map_append, List.sum_append,
      sum_replicate_zipIdx, List.length_replicate, ← Nat.succ_mul, ih, List.zipIdx_cons,
      List.map_cons, List.sum_cons]
    rfl

theorem costOf_eq (h : m.model = .ok lp) (x : List K) :
    lp.costOf x = (m.spans.zipIdx.map fun e =>
      e.1.weight * ∑ i ∈ Finset.range m.dims, x.getD (m.lengthColumn e.2 i) 0).sum := by
  have hcosts : lp.costOf x = (m.columns.zipIdx.map fun e => e.1.cost * x.getD e.2 0).sum := by
    rw [Model.costOf, (model_eq_ok h).1, ← List.zipWith_map_left (g := fun a y => a * y),
      System.sum_zipWith_eq _ x 0 (fun j => x.getD j 0) (by simp), List.zipIdx_map, List.map_map]
    rfl
  have hspans := sum_blocks m.spans m.dims 0 fun j => x.getD j 0
  rw [Nat.zero_mul] at hspans
  rw [hcosts, columns, List.zipIdx_append, List.map_append, List.sum_append, hspans,
    sum_replicate_zipIdx (column 0) _ _ fun j => x.getD j 0]
  simp [column, lengthColumn]

def shortest (m : Embedding K) (y : Nat → Nat → K) : List K :=
  blocks m.spans m.dims (fun s i => |y s.u i - y s.v i|) ++
    blocks (List.range m.vertices.length) m.dims y

variable {y : Nat → Nat → K}

theorem getD_shortest_length {e i : Nat} {s : Span K} (he : m.spans[e]? = some s)
    (hi : i < m.dims) : (m.shortest y).getD (m.lengthColumn e i) 0 = |y s.u i - y s.v i| := by
  have hlt := (List.getElem?_eq_some_iff.mp he).1
  have hin : e * m.dims + i < m.spans.length * m.dims := by nlinarith
  rw [shortest, lengthColumn, List.getD_eq_getElem?_getD,
    List.getElem?_append_left (by rwa [length_blocks]), getElem?_blocks hi, he]
  rfl

theorem getD_shortest_point {v i : Nat} (hv : v < m.vertices.length) (hi : i < m.dims) :
    (m.shortest y).getD (m.pointColumn v i) 0 = y v i := by
  have hcolumn : m.pointColumn v i = m.spans.length * m.dims + (v * m.dims + i) := by
    rw [pointColumn]
    ring
  rw [shortest, hcolumn, List.getD_eq_getElem?_getD,
    List.getElem?_append_right (by rw [length_blocks]; omega), length_blocks,
    Nat.add_sub_cancel_left, getElem?_blocks hi, List.getElem?_range hv]
  rfl

theorem Posed.corner_lt (k : m.Posed) {v : Nat} {c : Int} (hc : m.colors[v]? = some c)
    (hne : c ≠ 0) : (c - 1).toNat < m.dims := by
  have hcolor := k.colors c (List.mem_of_getElem? hc)
  omega

theorem Posed.embeds_shortest (k : m.Posed) (hnonneg : ∀ v i, 0 ≤ y v i)
    (hsum : ∀ v < m.vertices.length, ∑ i ∈ Finset.range m.dims, y v i = 1)
    (hcorner : ∀ v c, m.colors[v]? = some c → c ≠ 0 → y v (c - 1).toNat = 1) :
    m.Embeds (m.shortest y) := by
  refine ⟨by simp [shortest], fun a ha => ?_, fun e s i he hi => ?_, fun v hv => ?_,
    fun v c hc hne => ?_⟩
  · rcases List.mem_append.mp ha with ha | ha
    · obtain ⟨s, -, ha⟩ := List.mem_flatMap.mp ha
      obtain ⟨i, -, rfl⟩ := List.mem_map.mp ha
      exact abs_nonneg _
    · obtain ⟨v, -, ha⟩ := List.mem_flatMap.mp ha
      obtain ⟨i, -, rfl⟩ := List.mem_map.mp ha
      exact hnonneg v i
  · obtain ⟨hu, hv⟩ := k.ends s (List.mem_of_getElem? he)
    rw [getD_shortest_point hu hi, getD_shortest_point hv hi, getD_shortest_length he hi]
  · rw [k.length] at hv
    rw [← hsum v hv]
    exact Finset.sum_congr rfl fun i hi => getD_shortest_point hv (Finset.mem_range.mp hi)
  · have hv : v < m.vertices.length := k.length ▸ (List.getElem?_eq_some_iff.mp hc).1
    rw [getD_shortest_point hv (k.corner_lt hc hne), hcorner v c hc hne]

theorem costOf_shortest (h : m.model = .ok lp) : lp.costOf (m.shortest y) =
    (m.spans.map fun s => s.weight * ∑ i ∈ Finset.range m.dims, |y s.u i - y s.v i|).sum := by
  have hzip (f : Span K → K) : m.spans.map f = m.spans.zipIdx.map fun e => f e.1 := by
    conv_lhs => rw [← List.zipIdx_map_fst 0 m.spans, List.map_map]
    rfl
  rw [costOf_eq h, hzip]
  refine congrArg List.sum (List.map_congr_left fun e he => ?_)
  have hspan := List.mk_mem_zipIdx_iff_getElem?.mp he
  refine congrArg (e.1.weight * ·) (Finset.sum_congr rfl fun i hi => ?_)
  exact getD_shortest_length hspan (Finset.mem_range.mp hi)

theorem Posed.costOf_shortest_le (k : m.Posed) (h : m.model = .ok lp) (hx : m.Embeds x) :
    lp.costOf (m.shortest fun v i => x.getD (m.pointColumn v i) 0) ≤ lp.costOf x := by
  rw [costOf_eq h, costOf_eq h]
  refine List.sum_le_sum fun e he => ?_
  have hspan := List.mk_mem_zipIdx_iff_getElem?.mp he
  refine mul_le_mul_of_nonneg_left (Finset.sum_le_sum fun i hi => ?_)
    (k.weights _ (List.mem_of_getElem? hspan))
  have hi := Finset.mem_range.mp hi
  rw [getD_shortest_length hspan hi]
  exact hx.lengths _ _ i hspan hi

theorem Embeds.coordinate_nonneg (hx : m.Embeds x) (v i : Nat) :
    0 ≤ x.getD (m.pointColumn v i) 0 :=
  getD_of_forall (fun a : K => 0 ≤ a) le_rfl hx.nonneg _

theorem Posed.embeds_shortened (k : m.Posed) (hx : m.Embeds x) :
    m.Embeds (m.shortest fun v i => x.getD (m.pointColumn v i) 0) :=
  k.embeds_shortest (fun _ _ => hx.coordinate_nonneg _ _)
    (fun v hv => hx.simplex v (k.length ▸ hv)) hx.corner

theorem Posed.shortened_le_one (k : m.Posed) (hx : m.Embeds x) :
    ∀ a ∈ m.shortest fun v i => x.getD (m.pointColumn v i) 0, a ≤ 1 := by
  have hle {v i : Nat} (hv : v < m.vertices.length) (hi : i < m.dims) :
      x.getD (m.pointColumn v i) 0 ≤ 1 := by
    rw [← hx.simplex v (k.length ▸ hv)]
    exact Finset.single_le_sum (f := fun i => x.getD (m.pointColumn v i) 0)
      (fun i _ => hx.coordinate_nonneg v i) (Finset.mem_range.mpr hi)
  intro a ha
  rcases List.mem_append.mp ha with ha | ha
  · obtain ⟨s, hs, ha⟩ := List.mem_flatMap.mp ha
    obtain ⟨i, hi, rfl⟩ := List.mem_map.mp ha
    obtain ⟨hu, hv⟩ := k.ends s hs
    have hu1 := hle hu (List.mem_range.mp hi)
    have hv1 := hle hv (List.mem_range.mp hi)
    have hu0 := hx.coordinate_nonneg s.u i
    have hv0 := hx.coordinate_nonneg s.v i
    exact abs_le.mpr ⟨by linarith, by linarith⟩
  · obtain ⟨v, hv, ha⟩ := List.mem_flatMap.mp ha
    obtain ⟨i, hi, rfl⟩ := List.mem_map.mp ha
    exact hle (List.mem_range.mp hv) (List.mem_range.mp hi)

end Embedding

/-- The system with no column above a number, where none was limited before. -/
def System.capped (s : System K) (most : K) : System K :=
  { s with bounds := s.bounds.map fun b => (b.1, some most) }

theorem System.feasible_capped {s : System K} {most : K} (hopen : ∀ b ∈ s.bounds, b.2 = none)
    {x : List K} : (s.capped most).Feasible x ↔ s.Feasible x ∧ ∀ a ∈ x, a ≤ most := by
  have hbound {j : Nat} {b : Option K × Option K} (hb : s.bounds[j]? = some b) :
      (s.capped most).bounds[j]? = some (b.1, some most) := by
    simp [capped, hb]
  constructor
  · intro h
    have hlength : x.length = s.bounds.length := by simpa [capped] using h.length
    refine ⟨⟨hlength, fun j b a hb ha => ?_, h.atMost, h.equal⟩, fun a ha => ?_⟩
    · have hwithin := h.bounds j _ a (hbound hb) ha
      refine ⟨hwithin.1, fun u hu => ?_⟩
      rw [hopen b (List.mem_of_getElem? hb)] at hu
      cases hu
    · obtain ⟨j, hj, rfl⟩ := List.getElem_of_mem ha
      have hb := List.getElem?_eq_getElem (hlength ▸ hj)
      exact (h.bounds j _ _ (hbound hb) (List.getElem?_eq_getElem hj)).2 most rfl
  · rintro ⟨h, hmost⟩
    refine ⟨by simpa [capped] using h.length, fun j b a hb ha => ?_, h.atMost, h.equal⟩
    obtain ⟨b', hb', rfl⟩ : ∃ b', s.bounds[j]? = some b' ∧ (b'.1, some most) = b := by
      simpa [capped] using hb
    refine ⟨(h.bounds j b' a hb' ha).1, fun u hu => ?_⟩
    obtain rfl := Option.some.inj hu
    exact hmost a (List.mem_of_getElem? ha)

namespace Embedding

variable {m : Embedding K} {lp : Model K}

theorem direction_of_model (h : m.model = .ok lp) : lp.direction = .minimize := by
  obtain ⟨points, -, h⟩ := ok_bind_iff.mp h
  obtain rfl := Except.ok.inj h
  rfl

theorem objective_of_model (h : m.model = .ok lp) (x : List K) :
    lp.system.objective x = lp.costOf x := by
  rw [Model.objective_system, Model.signed, direction_of_model h]

theorem feasible_iff_embeds (h : m.model = .ok lp) {x : List K} :
    lp.system.Feasible x ↔ m.Embeds x :=
  Model.feasible_iff_admits.trans (admits_iff h)

/-- There is a point that costs least. The lengths have no upper bounds, but none above one is
needed. -/
theorem Posed.exists_cheapest (k : m.Posed) (h : m.model = .ok lp) (hex : ∃ x, m.Embeds x) :
    ∃ x, lp.system.Cheapest x := by
  have hopen : ∀ b ∈ lp.system.bounds, b.2 = none := by
    intro b hb
    obtain ⟨c, hc, rfl⟩ := List.mem_map.mp hb
    obtain ⟨cost, rfl⟩ := mem_columns ((model_eq_ok h).1 ▸ hc)
    rfl
  have hshort {x : List K} (hx : m.Embeds x) :
      (lp.system.capped 1).Feasible (m.shortest fun v i => x.getD (m.pointColumn v i) 0) :=
    (System.feasible_capped hopen).mpr
      ⟨(feasible_iff_embeds h).mpr (k.embeds_shortened hx), k.shortened_le_one hx⟩
  have hrange {x : List K} (hx : (lp.system.capped 1).Feasible x) (j : Nat) :
      |x.getD j 0| ≤ 1 := by
    obtain ⟨hfeasible, hmost⟩ := (System.feasible_capped hopen).mp hx
    have hnonneg := ((feasible_iff_embeds h).mp hfeasible).nonneg
    refine getD_of_forall (fun a => |a| ≤ 1) (by simp) (fun a ha => ?_) j
    exact abs_le.mpr ⟨by linarith [hnonneg a ha], hmost a ha⟩
  obtain ⟨x₀, hx₀⟩ := hex
  obtain ⟨x, -, hx, hleast⟩ := System.exists_cheapest_vertex ⟨_, hshort hx₀⟩ fun x hx => hrange hx
  refine ⟨x, ((System.feasible_capped hopen).mp hx).1, fun y hy => ?_⟩
  have hembeds := (feasible_iff_embeds h).mp hy
  calc lp.system.objective x
      ≤ lp.system.objective (m.shortest fun v i => y.getD (m.pointColumn v i) 0) :=
        hleast _ (hshort hembeds)
    _ ≤ lp.system.objective y := by
        rw [objective_of_model h, objective_of_model h]
        exact k.costOf_shortest_le h hembeds

end Embedding

end LPRounding
