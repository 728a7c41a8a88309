import LPRounding.Proofs.LP.Selection
import LPRounding.Proofs.LP.Trying
import LPRounding.Proofs.Run.Invariant
import LPRounding.Multiway.Division

/-!
Multiway cuts: where the colored vertices end up. The embedding puts a vertex of color `c` at the
corner of coordinate `c - 1`, which a division recognises by any positive radius of that coordinate;
a corner whose radius is zero is passed over, and its vertex goes to the last part.
-/

namespace LPRounding

set_option linter.unusedSectionVars false

variable {K : Type} [Field K] [LinearOrder K] [IsStrictOrderedRing K] [FloorRing K]

structure IsCorner (i : Nat) (point : List K) : Prop where
  one : point[i]? = some 1
  zero : ∀ j x, j ≠ i → point[j]? = some x → x = 0

namespace Division

variable {i : Nat} {radii point : List K} {r : K}

theorem reaches_corner_iff (hc : IsCorner i point) (hle : ∀ s ∈ radii, s ≤ 1)
    (hr : radii[i]? = some r) {j : Nat} {x s : K} (hx : point[j]? = some x)
    (hs : radii[j]? = some s) : 1 - x < s ↔ j = i ∧ 0 < r := by
  by_cases hj : j = i
  · subst hj
    obtain rfl := Option.some.inj (hc.one.symm.trans hx)
    obtain rfl := Option.some.inj (hr.symm.trans hs)
    simp
  · have hs1 := hle s (List.mem_of_getElem? hs)
    simp [hc.zero j x hj hx, hj, hs1]

/-- A corner is taken by its coordinate, or else by the last one if its radius is not positive. -/
theorem part_of_corner (hc : IsCorner i point) (hlen : point.length = radii.length)
    (hle : ∀ s ∈ radii, s ≤ 1) (hr : radii[i]? = some r) :
    part radii point = if 0 < r then i else radii.length - 1 := by
  have hi : i < radii.length := (List.getElem?_eq_some_iff.mp hr).1
  have hzip : (point.zip radii).length = radii.length := by simp [hlen]
  have htest (j : Nat) (hj : j < (point.zip radii).length) :
      decide (1 - (point.zip radii)[j].1 < (point.zip radii)[j].2) = true ↔ j = i ∧ 0 < r := by
    have hjp : j < point.length := by omega
    have hjr : j < radii.length := by omega
    rw [decide_eq_true_iff, List.getElem_zip]
    exact reaches_corner_iff hc hle hr (List.getElem?_eq_getElem hjp) (List.getElem?_eq_getElem hjr)
  unfold part
  split
  · next hpos =>
    have hfind : (point.zip radii).findIdx (fun e => decide (1 - e.1 < e.2)) = i := by
      rw [List.findIdx_eq (hzip ▸ hi)]
      refine ⟨(htest i _).mpr ⟨rfl, hpos⟩, fun j hj => ?_⟩
      by_contra hne
      have := (htest j (by omega)).mp (by simpa using hne)
      omega
    rw [hfind]
    omega
  · next hzero =>
    have hfind : (point.zip radii).findIdx (fun e => decide (1 - e.1 < e.2)) = radii.length := by
      rw [← hzip, List.findIdx_eq_length]
      intro e he
      obtain ⟨j, hj, rfl⟩ := List.getElem_of_mem he
      by_contra hne
      exact hzero ((htest j hj).mp (by simpa using hne)).2
    rw [hfind]
    omega

/-- A radius of zero misses its own corner: both ends of an edge between two corners go to the last
part, and the edge is not cut. -/
theorem corner_missed :
    ∃ d, (ofEnds [[1, 0], [0, 1]] [0, 1 / 2] [(0, 1)] [1] : Except (Fault ℚ) (Division ℚ)) = .ok d ∧
      d.parts = [1, 1] ∧ d.weight = 0 := by
  obtain ⟨d, hd, htest⟩ := exists_ok
    (ofEnds [[1, 0], [0, 1]] [0, 1 / 2] [(0, 1)] [1] : Except (Fault ℚ) (Division ℚ))
    (fun d => decide (d.parts = [1, 1] ∧ d.weight = 0)) (by decide +kernel)
  exact ⟨d, hd, of_decide_eq_true htest⟩

theorem lookup_numbered {vertices : List Node} {parts : List Nat} {v : Node} (hv : v ∈ vertices)
    (hlength : parts.length = vertices.length) :
    ((vertices.zip parts).map fun (v, i) => (v, i + 1)).lookup v =
      some (parts.getD (vertices.idxOf v) 0 + 1) := by
  induction vertices generalizing parts with
  | nil => cases hv
  | cons w vertices ih =>
    cases parts with
    | nil => simp at hlength
    | cons i parts =>
      by_cases hw : v = w
      · simp [hw]
      · have hv : v ∈ vertices := (List.mem_cons.mp hv).resolve_left hw
        have hlookup := ih hv (Nat.succ.inj hlength)
        simpa [List.lookup_cons, List.idxOf_cons, beq_false_of_ne hw, Ne.symm hw] using hlookup

theorem part_numbered {vertices : List Node} {d : Division K} {v : Node} (hv : v ∈ vertices)
    (hlength : d.parts.length = vertices.length) :
    (d.numbered vertices).part v = d.parts.getD (vertices.idxOf v) 0 + 1 := by
  rw [Parting.part, numbered, lookup_numbered hv hlength, Option.getD_some]

variable {S : Type} [Dice S K]

theorem drawRadii_spec {good : K → Prop} (hgood : ∀ dice : S, good (Dice.unit dice).1) (n : Nat)
    (dice : S) : (drawRadii n dice).1.length = n ∧ ∀ r ∈ (drawRadii n dice).1, good r := by
  induction n generalizing dice with
  | zero => simp [drawRadii]
  | succ n ih =>
    obtain ⟨hlen, hall⟩ := ih (Dice.unit dice).2
    refine ⟨by simp [drawRadii, hlen], fun r hr => ?_⟩
    rcases List.mem_cons.mp hr with rfl | hr
    · exact hgood dice
    · exact hall r hr

theorem best_spec {m : Embedding K} {points : List (List K)} {good : Division K → Prop}
    (hgood : ∀ dice : S, good (ofRadii m.spans points (drawRadii m.dims dice).1)) (n : Nat)
    (dice : S) {found : Option (Division K)} (hfound : ∀ d ∈ found, good d) :
    ∀ d ∈ best m points n dice found, good d := by
  induction n generalizing dice found with
  | zero => exact hfound
  | succ n ih =>
    refine ih _ fun d hd => ?_
    cases found with
    | none =>
      obtain rfl := Option.some.inj hd
      exact hgood dice
    | some b =>
      simp only [better] at hd
      split at hd
      · obtain rfl := Option.some.inj hd
        exact hgood dice
      · exact hfound d hd

end Division

namespace Embedding

variable {m : Embedding K} {lp : Model K} {x : List K}

theorem mem_columns {c : Column K} (h : c ∈ m.columns) : ∃ cost, c = column cost := by
  rcases List.mem_append.mp h with h | h
  · obtain ⟨s, -, h⟩ := List.mem_flatMap.mp h
    exact ⟨s.weight, (List.mem_replicate.mp h).2⟩
  · exact ⟨0, (List.mem_replicate.mp h).2⟩

theorem model_eq_ok (h : m.model = .ok lp) : lp.columns = m.columns ∧
    ∀ (v : Nat) c, m.colors[v]? = some c → ∃ rows, m.pointRows v c = .ok rows ∧ rows ⊆ lp.rows := by
  unfold model at h
  obtain ⟨points, hpoints, h⟩ := ok_bind_iff.mp h
  obtain rfl := Except.ok.inj h
  refine ⟨rfl, fun v c hc => ?_⟩
  obtain ⟨rows, hmem, hrows⟩ := exists_mem_of_mapM hpoints (List.mk_mem_zipIdx_iff_getElem?.mpr hc)
  exact ⟨rows, hrows, fun r hr =>
    List.mem_append_right _ (List.mem_flatten.mpr ⟨rows, hmem, hr⟩)⟩

theorem pointRows_eq_ok {v : Nat} {c : Int} {rows : List (Row K)} (h : m.pointRows v c = .ok rows)
    (hc : 1 ≤ c) : (c - 1).toNat < m.dims ∧
      rows = [unitRow [m.pointColumn v (c - 1).toNat], m.simplexRow v] := by
  rw [pointRows, if_neg (by omega)] at h
  split at h
  · exact ⟨by omega, (Except.ok.inj h).symm⟩
  · cases h

theorem corner_of_admits (hm : m.model = .ok lp) (hx : lp.Admits x) {v : Nat} {c : Int}
    (hv : m.colors[v]? = some c) (hc : 1 ≤ c) : (c - 1).toNat < m.dims ∧
      IsCorner (c - 1).toNat ((List.range m.dims).map fun i => x.getD (m.pointColumn v i) 0) := by
  obtain ⟨hcolumns, hrows⟩ := model_eq_ok hm
  obtain ⟨rows, hpoint, hsub⟩ := hrows v c hv
  obtain ⟨hlt, rfl⟩ := pointRows_eq_ok hpoint hc
  have hnonneg (j : Nat) : 0 ≤ x.getD j 0 := by
    rcases Nat.lt_or_ge j x.length with hj | hj
    · have hlt : j < lp.columns.length := hx.length ▸ hj
      have hmem : lp.columns[j] ∈ m.columns := by
        rw [← hcolumns]
        exact List.getElem_mem hlt
      obtain ⟨cost, hcolumn⟩ := mem_columns hmem
      have hadmits := hx.columns j _ _ (List.getElem?_eq_getElem hlt) (List.getElem?_eq_getElem hj)
      rw [hcolumn] at hadmits
      simpa [hj] using show (0 : K) ≤ x[j] from hadmits
    · simp [List.getElem?_eq_none hj]
  have hmet {js : List Nat} (hmem : unitRow js ∈ lp.rows) :
      (js.map fun j => x.getD j 0).sum = 1 := by
    rw [← weigh_ones]
    exact hx.rows _ hmem rfl
  have hone : x.getD (m.pointColumn v (c - 1).toNat) 0 = 1 := by
    simpa using hmet (hsub (List.mem_cons_self ..))
  have hsum : ∑ i ∈ Finset.range m.dims, x.getD (m.pointColumn v i) 0 = 1 := by
    have hall : (((List.range m.dims).map (m.pointColumn v)).map fun j => x.getD j 0).sum = 1 :=
      hmet (hsub (List.mem_cons_of_mem _ (List.mem_singleton_self _)))
    rw [List.map_map] at hall
    rw [← List.toFinset_range, List.sum_toFinset _ List.nodup_range]
    exact hall
  refine ⟨hlt, ?_, fun j y hj hy => ?_⟩
  · rw [List.getElem?_map, List.getElem?_range hlt, Option.map_some, hone]
  · obtain ⟨hjlt, rfl⟩ : j < m.dims ∧ x.getD (m.pointColumn v j) 0 = y := by
      simpa [List.getElem?_eq_some_iff] using hy
    -- the coordinate of the color leaves nothing over for the others
    rw [← Finset.add_sum_erase _ _ (Finset.mem_range.mpr hlt), hone, add_eq_left] at hsum
    exact (Finset.sum_eq_zero_iff_of_nonneg fun i _ => hnonneg _).mp hsum j
      (Finset.mem_erase.mpr ⟨hj, Finset.mem_range.mpr hjlt⟩)

/-- The coordinates of a point, vertex by vertex. -/
def coordinates (m : Embedding K) (x : List K) : List (List K) :=
  (List.range m.vertices.length).map fun v =>
    (List.range m.dims).map fun i => x.getD (m.pointColumn v i) 0

theorem points_eq {s : Solution K} {points : List (List K)} (hs : lp.solution = some s)
    (h : m.points lp = .ok points) : points = m.coordinates s.values :=
  eq_map_of_mapM (fun _ _ hv => eq_map_of_mapM
    (fun _ _ hi => Model.eq_getD_of_columnValue hs hi) hv) h

theorem parts_ofRadii (hm : m.model = .ok lp) (hx : lp.Admits x) {radii : List K}
    (hlength : radii.length = m.dims) (hle : ∀ r ∈ radii, r ≤ 1) {v : Nat} {c : Int}
    (hv : m.colors[v]? = some c) (hc : 1 ≤ c) (hvertex : v < m.vertices.length) :
    (Division.ofRadii m.spans (m.coordinates x) radii).parts[v]? = some (c - 1).toNat ↔
      0 < radii.getD (c - 1).toNat 0 ∨ c = m.dims := by
  obtain ⟨hi, hcorner⟩ := corner_of_admits hm hx hv hc
  have hr := List.getElem?_eq_getElem (hlength.symm ▸ hi)
  have hpart := Division.part_of_corner hcorner (by simp [hlength]) hle hr
  have hplace : (Division.ofRadii m.spans (m.coordinates x) radii).parts[v]? = some
      (Division.part radii ((List.range m.dims).map fun i => x.getD (m.pointColumn v i) 0)) := by
    simp [Division.ofRadii, coordinates, hvertex]
  rw [hplace, Option.some_inj, hpart, List.getD_eq_getElem?_getD, hr, Option.getD_some]
  split
  · next hpos => exact iff_of_true rfl (.inl hpos)
  · next hzero =>
    simp only [hzero, false_or]
    omega

theorem parts_best {S : Type} [Dice S K] (hm : m.model = .ok lp) (hx : lp.Admits x)
    (hdice : ∀ dice : S, 0 < (Dice.unit dice).1 ∧ (Dice.unit dice).1 ≤ 1) {n : Nat} {dice : S}
    {d : Division K} (hd : Division.best m (m.coordinates x) n dice none = some d) {v : Nat} {c : Int}
    (hv : m.colors[v]? = some c) (hc : 1 ≤ c) (hvertex : v < m.vertices.length) :
    d.parts.length = m.vertices.length ∧ d.parts[v]? = some (c - 1).toNat := by
  let placed (d : Division K) : Prop :=
    d.parts.length = m.vertices.length ∧ d.parts[v]? = some (c - 1).toNat
  show placed d
  refine Division.best_spec (fun dice => ?_) n dice (by simp) d hd
  obtain ⟨hlength, hradii⟩ : (Division.drawRadii m.dims dice).1.length = m.dims ∧
      ∀ r ∈ (Division.drawRadii m.dims dice).1, 0 < r ∧ r ≤ 1 :=
    Division.drawRadii_spec hdice _ dice
  refine ⟨by simp [Division.ofRadii, coordinates],
    (parts_ofRadii hm hx hlength (fun r hr => (hradii r hr).2) hv hc hvertex).mpr (.inl ?_)⟩
  have hlt := (corner_of_admits hm hx hv hc).1
  rw [List.getD_eq_getElem _ _ (by omega)]
  exact (hradii _ (List.getElem_mem _)).1

end Embedding

namespace Multiway

theorem le_foldl_max {c : Int} {cs : List Int} (h : c ∈ cs) (a : Int) : c ≤ cs.foldl max a := by
  have grows (cs : List Int) (a : Int) : a ≤ cs.foldl max a := by
    induction cs generalizing a with
    | nil => exact le_rfl
    | cons b bs ih => exact (le_max_left a b).trans (ih _)
  induction cs generalizing a with
  | nil => cases h
  | cons b bs ih =>
    rcases List.mem_cons.mp h with rfl | h
    · exact (le_max_right a c).trans (grows bs _)
    · exact ih h _

theorem ofGraph_eq_ok {g : Graph K} {weightName colorName : String} {roundings : Option Int}
    {p : Multiway K} (h : ofGraph g weightName colorName roundings = .ok p) :
    p.embedding.vertices = g.vertices ∧
      g.vertices.mapM (Embedding.color g colorName) = .ok p.embedding.colors ∧
      ∀ c ∈ p.embedding.colors, c ≤ p.embedding.dims := by
  unfold ofGraph at h
  dsimp only at h
  split at h
  · cases h
  split at h
  · cases h
  obtain ⟨m, hm, h⟩ := ok_bind_iff.mp h
  obtain ⟨colors, hcolors, hm⟩ := ok_bind_iff.mp hm
  obtain rfl := Except.ok.inj hm
  split at h
  · cases h
  split at h
  · cases h
  · obtain rfl := Except.ok.inj h
    exact ⟨rfl, hcolors, fun c hc => (le_foldl_max hc 0).trans (Int.self_le_toNat _)⟩

theorem color_of_ofGraph {g : Graph K} {weightName colorName : String} {roundings : Option Int}
    {p : Multiway K} (h : ofGraph g weightName colorName roundings = .ok p) {v : Nat} {node : Node}
    {c : Int} (hv : g.vertices[v]? = some node) (hc : Embedding.color g colorName node = .ok c) :
    v < p.embedding.vertices.length ∧ p.embedding.colors[v]? = some c := by
  obtain ⟨hvertices, hcolors, -⟩ := ofGraph_eq_ok h
  have hlt := (List.getElem?_eq_some_iff.mp hv).1
  obtain ⟨hlen, hall⟩ := List.forall₂_iff_get.mp (mapM_ok_iff.mp hcolors)
  refine ⟨hvertices ▸ hlt, ?_⟩
  have hget := hall v hlt (hlen ▸ hlt)
  rw [List.get_eq_getElem, (List.getElem?_eq_some_iff.mp hv).2, hc] at hget
  rw [List.getElem?_eq_getElem (hlen ▸ hlt), Except.ok.inj hget]
  rfl

variable {S : Type} [Backend K] [Dice S K]

/-- What a division of an instance with parts does: it solves the embedding and takes the best of
the random divisions of the point. -/
theorem returns_divide {dice : S} {s t : Run (Multiway K) K} {d : Division K}
    (hsolver : (Backend.solver : Solver K).Sound) (hdims : s.problem.embedding.dims ≠ 0)
    (h : Returns (divide dice) s d t) :
    ∃ lp x, s.problem.embedding.model = .ok lp ∧ lp.Admits x ∧
      Division.best s.problem.embedding (s.problem.embedding.coordinates x) s.problem.roundings dice
        none = some d := by
  simp only [divide, returns_bind, Action.returns_problem] at h
  obtain ⟨p, u, ⟨rfl, rfl⟩, h⟩ := h
  rw [if_neg hdims] at h
  simp only [returns_bind, returns_lift, Action.returns_setModel] at h
  obtain ⟨lp, _, ⟨hlp, rfl⟩, _, _, rfl, st, u, hs, h⟩ := h
  by_cases hst : st = .optimal
  · subst hst
    simp only [ne_eq, not_true_eq_false, if_false, returns_bind, returns_lift,
      Action.returns_model, Action.returns_note] at h
    obtain ⟨_, _, ⟨rfl, rfl⟩, _, _, ⟨-, rfl⟩, _, _, rfl, points, _, ⟨hpoints, rfl⟩, h⟩ := h
    obtain ⟨-, hsolve⟩ := Action.returns_solveModel hs
    obtain ⟨sol, hsol, hadmits⟩ := Model.solved_of_solve hsolver hsolve
    obtain ⟨_, hgrown, -⟩ := Model.returns_solve hsolve
    rw [hgrown] at hadmits
    refine ⟨lp, sol.values, hlp, ⟨hadmits.length, hadmits.columns, hadmits.rows⟩, ?_⟩
    rw [← Embedding.points_eq hsol hpoints]
    split at h
    · simp at h
    · next d' hd =>
      simp only [returns_bind, Action.returns_note, returns_pure] at h
      obtain ⟨_, _, -, rfl, -⟩ := h
      exact hd
  · simp [hst] at h

omit [IsStrictOrderedRing K] in
theorem returns_solve {dice : S} {s t : Run (Multiway K) K} {r : Parting K} :
    Returns (solve dice) s r t ↔
      ∃ d, Returns (divide dice) s d t ∧ d.numbered s.problem.embedding.vertices = r := by
  simp [solve]

theorem part_of_solve {g : Graph K} {weightName colorName : String} {roundings : Option Int}
    {p : Multiway K} (hmake : ofGraph g weightName colorName roundings = .ok p)
    (hsolver : (Backend.solver : Solver K).Sound)
    (hdice : ∀ dice : S, 0 < (Dice.unit dice).1 ∧ (Dice.unit dice).1 ≤ 1) {dice : S} {r : Parting K}
    {t : Run (Multiway K) K} (h : Returns (solve dice) { problem := p } r t) {v : Node} {c : Int}
    (hv : v ∈ g.vertices) (hc : Embedding.color g colorName v = .ok c) (hpos : 1 ≤ c) :
    (r.part v : Int) = c := by
  obtain ⟨d, hd, rfl⟩ := returns_solve.mp h
  obtain ⟨hlt, hcolor⟩ := color_of_ofGraph hmake (List.getElem?_idxOf hv) hc
  obtain ⟨hvertices, -, hcolors⟩ := ofGraph_eq_ok hmake
  have hle := hcolors c (List.mem_of_getElem? hcolor)
  obtain ⟨lp, x, hlp, hx, hbest⟩ :=
    returns_divide hsolver (by show p.embedding.dims ≠ 0; omega) hd
  obtain ⟨hlength, hplaced⟩ := Embedding.parts_best hlp hx hdice hbest hcolor hpos hlt
  show ((d.numbered p.embedding.vertices).part v : Int) = c
  rw [Division.part_numbered (hvertices.symm ▸ hv) hlength, hvertices,
    List.getD_eq_getElem?_getD, hplaced, Option.getD_some]
  omega

/-- With radii up to one, a division of a point of the embedding puts a vertex of color `c` into the
part of that color exactly when the radius of its coordinate is positive, or the coordinate is the
last one. So where no radius is zero, every colored vertex is handed over with its color as its part,
whichever of the random divisions is the best, and two vertices of different colors are in different
parts. -/
theorem terminals_apart {g : Graph K} {weightName colorName : String} {roundings : Option Int}
    {p : Multiway K} (hmake : ofGraph g weightName colorName roundings = .ok p) :
    (∀ lp x radii, p.embedding.model = .ok lp → lp.Admits x → radii.length = p.embedding.dims →
      (∀ r ∈ radii, r ≤ 1) → ∀ (v : Nat) node c, g.vertices[v]? = some node →
        Embedding.color g colorName node = .ok c → 1 ≤ c →
        ((Division.ofRadii p.embedding.spans (p.embedding.coordinates x) radii).parts[v]? =
          some (c - 1).toNat ↔ 0 < radii.getD (c - 1).toNat 0 ∨ c = p.embedding.dims)) ∧
    ((Backend.solver : Solver K).Sound →
      (∀ dice : S, 0 < (Dice.unit dice).1 ∧ (Dice.unit dice).1 ≤ 1) →
      ∀ (dice : S) (r : Parting K) (t : Run (Multiway K) K),
      Returns (solve dice) { problem := p } r t →
      (∀ v ∈ g.vertices, ∀ c, Embedding.color g colorName v = .ok c → 1 ≤ c →
        (r.part v : Int) = c) ∧
      ∀ v ∈ g.vertices, ∀ w ∈ g.vertices, ∀ c c', Embedding.color g colorName v = .ok c →
        Embedding.color g colorName w = .ok c' → 1 ≤ c → 1 ≤ c' → c ≠ c' →
        r.part v ≠ r.part w) := by
  refine ⟨fun lp x radii hlp hx hlength hle v node c hv hc hpos => ?_,
    fun hsolver hdice dice r t h => ?_⟩
  · obtain ⟨hlt, hcolor⟩ := color_of_ofGraph hmake hv hc
    exact Embedding.parts_ofRadii hlp hx hlength hle hcolor hpos hlt
  have hparts (v : Node) (hv : v ∈ g.vertices) (c : Int)
      (hc : Embedding.color g colorName v = .ok c) (hpos : 1 ≤ c) : (r.part v : Int) = c :=
    part_of_solve hmake hsolver hdice h hv hc hpos
  refine ⟨hparts, fun v hv w hw c c' hc hc' hpos hpos' hne heq => hne ?_⟩
  rw [← hparts v hv c hc hpos, ← hparts w hw c' hc' hpos', heq]

def pair : Graph ℚ where
  vertices := [.number 1, .number 2]
  labels := [(.number 1, [("color", 1)]), (.number 2, [("color", 2)])]
  links := [{ tail := .number 1, head := .number 2, key := 0, attrs := [] }]

@[reducible] def pairBackend : Backend ℚ := .trying [[1, 1, 1, 0, 0, 1]] Augment.finder 1

@[reducible] def halves : Dice Unit ℚ where
  below _ s := (0, s)
  unit s := (1 / 2, s)
  weighted _ s := .ok (0, s)

theorem pair_apart :
    let _ := pairBackend
    let _ := halves
    ∃ (p : Multiway ℚ) (r : Parting ℚ) (t : Run (Multiway ℚ) ℚ),
      ofGraph pair "weight" "color" none = .ok p ∧ Returns (solve ()) { problem := p } r t ∧
      (r.part (.number 1) : Int) = 1 ∧ (r.part (.number 2) : Int) = 2 := by
  let _ := pairBackend
  let _ := halves
  obtain ⟨p, hp, hrun⟩ := exists_ok (ofGraph pair "weight" "color" none)
    (fun p => yields (solve ()) { problem := p } fun _ => true) (by decide +kernel)
  obtain ⟨r, t, h, -⟩ := exists_returns hrun
  have hparts := ((terminals_apart hp).2 (Solver.trying_sound _)
    (fun _ => ⟨show (0 : ℚ) < 1 / 2 by norm_num, show (1 / 2 : ℚ) ≤ 1 by norm_num⟩) () r t h).1
  exact ⟨p, r, t, hp, h, hparts (.number 1) (by decide) 1 rfl le_rfl,
    hparts (.number 2) (by decide) 2 rfl (by norm_num)⟩

end Multiway

end LPRounding
