import LPRounding.Proofs.Multiway.Weight

/-!
The model of a colored graph is the relaxation of its multiway cuts. Vertices can be put anywhere on
the standard simplex, colored ones at their corners, and nowhere else; the shortest lengths that go
with them cost what the edges weigh, times the distances of their ends. So the least cost of a point
is the least stretch of such a placement, and there always is one.
-/

namespace LPRounding

set_option linter.unusedSectionVars false

variable {K : Type} [Field K] [LinearOrder K] [IsStrictOrderedRing K] [FloorRing K]

theorem eq_single_of_mem_stdSimplex {d : Nat} {y : Fin d → K} (hy : y ∈ stdSimplex K (Fin d))
    {i : Fin d} (hi : y i = 1) : y = Pi.single i 1 := by
  obtain ⟨hnonneg, hsum⟩ := hy
  rw [← Finset.add_sum_erase _ _ (Finset.mem_univ i), hi, add_eq_left] at hsum
  funext j
  by_cases hj : j = i
  · subst hj
    rw [hi, Pi.single_eq_same]
  · rw [Pi.single_eq_of_ne hj]
    exact (Finset.sum_eq_zero_iff_of_nonneg fun i _ => hnonneg i).mp hsum j
      (Finset.mem_erase.mpr ⟨hj, Finset.mem_univ j⟩)

namespace Graph

/-- Every vertex is on the standard simplex, and one of color `c` at the corner of coordinate
`c - 1`. -/
structure Placed (g : Graph K) (colorName : String) {d : Nat} (y : Node → Fin d → K) : Prop where
  simplex : ∀ v ∈ g.vertices, y v ∈ stdSimplex K (Fin d)
  corner : ∀ v ∈ g.vertices, ∀ i : Fin d, Embedding.color g colorName v = .ok ((i : Int) + 1) →
    y v = Pi.single i 1

/-- What the edges weigh, each times the distance of its ends, summed over all coordinates. -/
def stretch (g : Graph K) (weightName : String) {d : Nat} (y : Node → Fin d → K) : K :=
  (g.edges.map fun e => e.cost weightName * ∑ i, |y e.name.u i - y e.name.v i|).sum

end Graph

namespace Embedding

variable {g : Graph K} {weightName colorName : String} {m : Embedding K} {lp : Model K} {x : List K}

structure Draws (m : Embedding K) (g : Graph K) (weightName colorName : String) : Prop where
  posed : m.Posed
  valid : g.Valid
  vertices : m.vertices = g.vertices
  spans : m.spans = g.edges.map (span g weightName)
  colors : g.vertices.mapM (color g colorName) = .ok m.colors

/-- The point puts the vertices where `y` does. -/
def Extends {d : Nat} (m : Embedding K) (y : Node → Fin d → K) (x : List K) : Prop :=
  m.coordinates x = m.vertices.map fun v => List.ofFn (y v)

variable {y : Node → Fin m.dims → K}

theorem extends_iff : m.Extends y x ↔ ∀ (v : Nat) node, m.vertices[v]? = some node →
    ∀ i : Fin m.dims, x.getD (m.pointColumn v i) 0 = y node i := by
  constructor
  · intro h v node hv i
    obtain ⟨hlt, rfl⟩ := List.getElem?_eq_some_iff.mp hv
    have hat := congrArg (fun points => points[v]?.bind fun point => point[(i : Nat)]?) h
    simpa [coordinates, hlt] using hat
  · intro h
    refine List.ext_getElem (by simp [coordinates]) fun v _ hv => ?_
    have hlt : v < m.vertices.length := by simpa using hv
    refine List.ext_getElem (by simp [coordinates]) fun i _ hi => ?_
    have hdim : i < m.dims := by simpa using hi
    simpa [coordinates] using h v _ (List.getElem?_eq_getElem hlt) ⟨i, hdim⟩

def byPlace (m : Embedding K) (y : Node → Fin m.dims → K) (v i : Nat) : K :=
  if h : v < m.vertices.length ∧ i < m.dims then y m.vertices[v] ⟨i, h.2⟩ else 0

theorem byPlace_eq {v : Nat} {node : Node} (hv : m.vertices[v]? = some node) (i : Fin m.dims) :
    m.byPlace y v i = y node i := by
  obtain ⟨hlt, rfl⟩ := List.getElem?_eq_some_iff.mp hv
  simp [byPlace, hlt]

theorem extends_shortest : m.Extends y (m.shortest (m.byPlace y)) := by
  refine extends_iff.mpr fun v node hv i => ?_
  rw [getD_shortest_point (List.getElem?_eq_some_iff.mp hv).1 i.isLt, byPlace_eq hv]

namespace Draws

variable (w : m.Draws g weightName colorName)

include w

theorem color_iff {v : Nat} {node : Node} {c : Int} (hv : m.vertices[v]? = some node) :
    m.colors[v]? = some c ↔ color g colorName node = .ok c := by
  rw [w.vertices] at hv
  obtain ⟨hlength, hall⟩ := List.forall₂_iff_get.mp (mapM_ok_iff.mp w.colors)
  obtain ⟨hlt, rfl⟩ := List.getElem?_eq_some_iff.mp hv
  have hget := hall v hlt (hlength ▸ hlt)
  simp only [List.get_eq_getElem] at hget
  rw [List.getElem?_eq_getElem (hlength ▸ hlt), hget, Option.some.injEq, Except.ok.injEq]

theorem placed (hx : m.Embeds x) (hy : m.Extends y x) : g.Placed colorName y := by
  have hread := extends_iff.mp hy
  have hsimplex (node : Node) (hnode : node ∈ g.vertices) : y node ∈ stdSimplex K (Fin m.dims) := by
    obtain ⟨v, hv⟩ := List.mem_iff_getElem?.mp (w.vertices ▸ hnode)
    have hlt := (List.getElem?_eq_some_iff.mp hv).1
    refine ⟨fun i => ?_, ?_⟩
    · rw [← hread v node hv i]
      exact hx.coordinate_nonneg v i
    · rw [← hx.simplex v (w.posed.length ▸ hlt), Finset.sum_range]
      exact Finset.sum_congr rfl fun i _ => (hread v node hv i).symm
  refine ⟨hsimplex, fun node hnode i hcolor => ?_⟩
  obtain ⟨v, hv⟩ := List.mem_iff_getElem?.mp (w.vertices ▸ hnode)
  have hone := hx.corner v _ ((w.color_iff hv).mpr hcolor) (by omega)
  rw [show ((i : Int) + 1 - 1).toNat = i by omega, hread v node hv i] at hone
  exact eq_single_of_mem_stdSimplex (hsimplex node hnode) hone

theorem embeds_shortest (hy : g.Placed colorName y) : m.Embeds (m.shortest (m.byPlace y)) := by
  have hmem {v : Nat} {node : Node} (hv : m.vertices[v]? = some node) : node ∈ g.vertices :=
    w.vertices ▸ List.mem_of_getElem? hv
  refine w.posed.embeds_shortest (fun v i => ?_) (fun v hv => ?_) fun v c hc hne => ?_
  · unfold byPlace
    split
    · next h => exact (hy.simplex _ (hmem (List.getElem?_eq_getElem h.1))).1 _
    · exact le_rfl
  · have hnode := List.getElem?_eq_getElem hv
    rw [Finset.sum_range, ← (hy.simplex _ (hmem hnode)).2]
    exact Finset.sum_congr rfl fun i _ => byPlace_eq hnode i
  · have hv : v < m.vertices.length := w.posed.length ▸ (List.getElem?_eq_some_iff.mp hc).1
    have hnode := List.getElem?_eq_getElem hv
    have hrange := w.posed.colors c (List.mem_of_getElem? hc)
    let i : Fin m.dims := ⟨(c - 1).toNat, w.posed.corner_lt hc hne⟩
    have hcolor : color g colorName m.vertices[v] = .ok ((i : Int) + 1) := by
      rw [(w.color_iff hnode).mp hc]
      congr 1
      show c = ((c - 1).toNat : Int) + 1
      omega
    rw [show m.byPlace y v (c - 1).toNat = y m.vertices[v] i from byPlace_eq hnode i,
      hy.corner _ (hmem hnode) i hcolor, Pi.single_eq_same]

theorem costOf_shortest (h : m.model = .ok lp) :
    lp.costOf (m.shortest (m.byPlace y)) = g.stretch weightName y := by
  have hplace {u : Node} (hu : u ∈ g.vertices) : m.vertices[g.vertices.idxOf u]? = some u := by
    rw [w.vertices]
    exact List.getElem?_idxOf hu
  rw [Embedding.costOf_shortest h, w.spans, List.map_map, Graph.stretch]
  refine congrArg List.sum (List.map_congr_left fun e he => ?_)
  obtain ⟨hu, hv⟩ := w.valid.edge_ends he
  refine congrArg (e.cost weightName * ·) ?_
  rw [Finset.sum_range]
  refine Finset.sum_congr rfl fun i _ => ?_
  rw [← byPlace_eq (y := y) (hplace hu) i, ← byPlace_eq (y := y) (hplace hv) i]
  rfl

theorem exists_extends (x : List K) : ∃ y : Node → Fin m.dims → K, m.Extends y x := by
  refine ⟨fun node i => x.getD (m.pointColumn (m.vertices.idxOf node) i) 0,
    extends_iff.mpr fun v node hv i => ?_⟩
  obtain ⟨hlt, rfl⟩ := List.getElem?_eq_some_iff.mp hv
  have hnodup : m.vertices.Nodup := w.vertices ▸ w.valid.nodup
  rw [hnodup.idxOf_getElem v hlt]

theorem stretch_le (h : m.model = .ok lp) (hx : m.Embeds x) (hy : m.Extends y x) :
    g.stretch weightName y ≤ lp.costOf x := by
  have hread := extends_iff.mp hy
  have hsame {v i : Nat} (hv : v < m.vertices.length) (hi : i ∈ Finset.range m.dims) :
      m.byPlace y v i = x.getD (m.pointColumn v i) 0 := by
    have hnode := List.getElem?_eq_getElem hv
    have hi := Finset.mem_range.mp hi
    exact (byPlace_eq hnode ⟨i, hi⟩).trans (hread v _ hnode ⟨i, hi⟩).symm
  refine le_trans (le_of_eq ?_) (w.posed.costOf_shortest_le h hx)
  rw [← w.costOf_shortest h, Embedding.costOf_shortest h, Embedding.costOf_shortest h]
  refine congrArg List.sum (List.map_congr_left fun s hs => ?_)
  obtain ⟨hu, hv⟩ := w.posed.ends s hs
  exact congrArg (s.weight * ·) (Finset.sum_congr rfl fun i hi => by rw [hsame hu hi, hsame hv hi])

end Draws

end Embedding

theorem Multiway.Suits.exists_draws {g : Graph K} {weightName colorName : String}
    {roundings : Option Int} {k : Nat} (h : Suits g weightName colorName roundings k) :
    ∃ m, Embedding.ofGraph g weightName colorName k = .ok m ∧ m.dims = k ∧
      m.Draws g weightName colorName := by
  obtain ⟨colors, hcolors, hbounds, -⟩ := h.exists_colors
  refine ⟨{ vertices := g.vertices, colors, spans := g.edges.map (Embedding.span g weightName)
            dims := k }, ok_bind_iff.mpr ⟨colors, hcolors, rfl⟩, rfl, ?_, h.valid, rfl, rfl, hcolors⟩
  exact { ends := fun s hs => (h.spans s hs).2
          weights := fun s hs => (h.spans s hs).1
          length := (mapM_ok_iff.mp hcolors).length_eq.symm
          colors := hbounds
          dims := by exact_mod_cast h.pos }

namespace Embedding

variable {g : Graph K} {weightName colorName : String} {k : Nat}

/-- The model of a graph with colors is a relaxation: a placement of the vertices extends to a point
just when it is on the simplex, with colored vertices at their corners, and its cheapest extension
costs its stretch. A point that costs least exists, and no placement has less stretch than it
costs. -/
theorem model_relaxes (h : Multiway.Suits g weightName colorName none k) :
    ∃ (m : Embedding K) (lp : Model K), ofGraph g weightName colorName k = .ok m ∧
      m.model = .ok lp ∧
      (∀ y : Node → Fin k → K, (∃ x, lp.Admits x ∧ m.Extends y x) ↔ g.Placed colorName y) ∧
      (∀ y : Node → Fin k → K, g.Placed colorName y →
        IsLeast (lp.costOf '' {x | lp.Admits x ∧ m.Extends y x}) (g.stretch weightName y)) ∧
      ∃ c, IsLeast (lp.costOf '' {x | lp.Admits x}) c ∧
        IsLeast (g.stretch weightName '' {y : Node → Fin k → K | g.Placed colorName y}) c := by
  obtain ⟨m, hm, rfl, w⟩ := h.exists_draws
  obtain ⟨lp, hlp⟩ := w.posed.exists_model
  have hembeds {x : List K} : lp.Admits x ↔ m.Embeds x := admits_iff hlp
  have hplaced (y : Node → Fin m.dims → K) :
      (∃ x, lp.Admits x ∧ m.Extends y x) ↔ g.Placed colorName y := by
    constructor
    · rintro ⟨x, hx, hy⟩
      exact w.placed (hembeds.mp hx) hy
    · intro hy
      exact ⟨_, hembeds.mpr (w.embeds_shortest hy), extends_shortest⟩
  have hleast (y : Node → Fin m.dims → K) (hy : g.Placed colorName y) :
      IsLeast (lp.costOf '' {x | lp.Admits x ∧ m.Extends y x}) (g.stretch weightName y) := by
    refine ⟨⟨_, ⟨hembeds.mpr (w.embeds_shortest hy), extends_shortest⟩, w.costOf_shortest hlp⟩, ?_⟩
    rintro _ ⟨x, ⟨hx, hy⟩, rfl⟩
    exact w.stretch_le hlp (hembeds.mp hx) hy
  refine ⟨m, lp, hm, hlp, hplaced, hleast, ?_⟩
  -- some point costs least, since the vertices can be put at corners
  obtain ⟨part, hpart⟩ := w.posed.exists_respects
  obtain ⟨x, hx, hcheapest⟩ := w.posed.exists_cheapest hlp ⟨_, w.posed.embeds_corners hpart⟩
  have hadmits := (feasible_iff_embeds hlp).mp hx
  have hbelow (x' : List K) (hx' : lp.Admits x') : lp.costOf x ≤ lp.costOf x' := by
    rw [← objective_of_model hlp, ← objective_of_model hlp]
    exact hcheapest x' ((feasible_iff_embeds hlp).mpr (hembeds.mp hx'))
  refine ⟨lp.costOf x, ⟨⟨x, hembeds.mpr hadmits, rfl⟩, ?_⟩, ?_, ?_⟩
  · rintro _ ⟨x', hx', rfl⟩
    exact hbelow x' hx'
  · obtain ⟨y, hy⟩ := w.exists_extends x
    have hplacement := w.placed hadmits hy
    obtain ⟨⟨x', ⟨hx', -⟩, hcost⟩, -⟩ := hleast y hplacement
    refine ⟨y, hplacement, le_antisymm (w.stretch_le hlp hadmits hy) ?_⟩
    rw [← hcost]
    exact hbelow x' hx'
  · rintro _ ⟨y, hy, rfl⟩
    obtain ⟨⟨x', ⟨hx', -⟩, hcost⟩, -⟩ := hleast y hy
    exact (hbelow x' hx').trans_eq hcost

def tangle : Graph ℚ where
  kind := .multi
  vertices := [.number 1, .number 2, .number 3]
  labels := [(.number 1, [("color", 1)]), (.number 2, [("color", 2)])]
  links := [{ tail := .number 1, head := .number 3, key := 0, attrs := [("weight", 1)] },
    { tail := .number 3, head := .number 2, key := 0, attrs := [("weight", 2)] },
    { tail := .number 2, head := .number 3, key := 1, attrs := [("weight", 3)] },
    { tail := .number 3, head := .number 3, key := 0, attrs := [("weight", 4)] }]

theorem tangle_suits : Multiway.Suits tangle "weight" "color" none 2 := by
  have hone : color tangle "color" (.number 1) = .ok 1 := rfl
  have htwo : color tangle "color" (.number 2) = .ok 2 := rfl
  have hthree : color tangle "color" (.number 3) = .ok 0 := rfl
  have hcolor {v : Node} {c : Int} (hv : v ∈ tangle.vertices) (hc : color tangle "color" v = .ok c) :
      0 ≤ c ∧ c ≤ 2 := by
    have hv : v = .number 1 ∨ v = .number 2 ∨ v = .number 3 := by simpa [tangle] using hv
    rcases hv with rfl | rfl | rfl
    · obtain rfl := Except.ok.inj (hone.symm.trans hc)
      decide
    · obtain rfl := Except.ok.inj (htwo.symm.trans hc)
      decide
    · obtain rfl := Except.ok.inj (hthree.symm.trans hc)
      decide
  refine ⟨⟨by decide, by decide, by decide⟩, by decide, by decide +kernel,
    fun v hv c hc => (hcolor hv hc).1, ⟨⟨.number 2, by decide, htwo⟩, ?_⟩, by norm_num, by simp⟩
  rintro c ⟨v, hv, hc⟩
  exact (hcolor hv hc).2

theorem stretch_tangle (y : Node → Fin 2 → ℚ) : tangle.stretch "weight" y =
    |y (.number 1) 0 - y (.number 3) 0| + |y (.number 1) 1 - y (.number 3) 1| +
      5 * (|y (.number 2) 0 - y (.number 3) 0| + |y (.number 2) 1 - y (.number 3) 1|) := by
  have hedges : tangle.edges.map (fun e => (e.name.u, e.name.v, e.cost "weight")) =
      [(.number 1, .number 3, 1), (.number 2, .number 3, 2), (.number 2, .number 3, 3),
        (.number 3, .number 3, 4)] := by decide +kernel
  have hsum : tangle.stretch "weight" y =
      ((tangle.edges.map fun e => (e.name.u, e.name.v, e.cost "weight")).map
        fun e => e.2.2 * ∑ i, |y e.1 i - y e.2.1 i|).sum := by
    rw [List.map_map]
    rfl
  rw [hsum, hedges]
  simp only [List.map_cons, List.map_nil, List.sum_cons, List.sum_nil, Fin.sum_univ_two, sub_self,
    abs_zero]
  ring

def tangleSides (v : Node) : Fin 2 → ℚ := if v = .number 1 then Pi.single 0 1 else Pi.single 1 1

theorem placed_tangleSides : tangle.Placed "color" tangleSides := by
  refine ⟨fun v _ => ?_, fun v hv i hi => ?_⟩
  · unfold tangleSides
    split <;> exact single_mem_stdSimplex ℚ _
  · have hv : v = .number 1 ∨ v = .number 2 ∨ v = .number 3 := by simpa [tangle] using hv
    rcases hv with rfl | rfl | rfl
    · have hcolor : (1 : Int) = i + 1 := Except.ok.inj (hi : Except.ok (1 : Int) = _)
      obtain rfl : i = 0 := by omega
      rfl
    · have hcolor : (2 : Int) = i + 1 := Except.ok.inj (hi : Except.ok (2 : Int) = _)
      obtain rfl : i = 1 := by omega
      rfl
    · have hcolor : (0 : Int) = i + 1 := Except.ok.inj (hi : Except.ok (0 : Int) = _)
      omega

/-- The free vertex is best put with the vertex of color 2: the edge that is then as long as it can
be, between two corners, weighs one. -/
theorem tangle_relaxed : Multiway.Suits tangle "weight" "color" none 2 ∧
    ∃ m lp, ofGraph tangle "weight" "color" 2 = .ok m ∧ m.model = .ok lp ∧
      IsLeast (lp.costOf '' {x | lp.Admits x}) 2 := by
  obtain ⟨m, lp, hm, hlp, -, -, c, hcost, ⟨y, hy, hstretch⟩, hleast⟩ := model_relaxes tangle_suits
  have hone := hy.corner (.number 1) (by decide) 0 rfl
  have htwo := hy.corner (.number 2) (by decide) 1 rfl
  obtain ⟨hnonneg, hsum⟩ := hy.simplex (.number 3) (by decide)
  rw [Fin.sum_univ_two] at hsum
  have hlower : 2 ≤ c := by
    rw [← hstretch, stretch_tangle, hone, htwo]
    generalize y (.number 3) = z at hnonneg hsum
    have h₀ := hnonneg 0
    have h₁ := le_abs_self (1 - z 0)
    have h₂ := neg_le_abs (0 - z 1)
    have h₃ := neg_le_abs (0 - z 0)
    have h₄ := le_abs_self (1 - z 1)
    show 2 ≤ |1 - z 0| + |0 - z 1| + 5 * (|0 - z 0| + |1 - z 1|)
    linarith
  have hupper : c ≤ 2 := by
    refine (hleast ⟨_, placed_tangleSides, rfl⟩).trans_eq ?_
    rw [stretch_tangle]
    norm_num [tangleSides]
  obtain rfl := le_antisymm hupper hlower
  exact ⟨tangle_suits, m, lp, hm, hlp, hcost⟩

end Embedding

end LPRounding
