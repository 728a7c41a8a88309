import LPRounding.Proofs.Multiway.Simplex
import LPRounding.Proofs.Graph.Edges
import LPRounding.Proofs.Sums
import LPRounding.Proofs.Ends

/-!
What a multiway cut weighs. A division that leaves the colored vertices apart is itself an
embedding, with every vertex at a corner, where an edge that is cut has length two; so no embedding
that costs least costs more than twice any division.
-/

namespace LPRounding

set_option linter.unusedSectionVars false

variable {K : Type} [Field K] [LinearOrder K] [IsStrictOrderedRing K] [FloorRing K]

/-- The solver finds a point that costs least where there is one. -/
def Solver.Finds (solver : Solver K) : Prop :=
  ∀ s, (∃ x, s.Cheapest x) → ∃ x c, solver s = .optimal x c

open Classical in
noncomputable def Solver.cheapest : Solver K := fun s =>
  if h : ∃ x, s.Cheapest x then .optimal h.choose (s.objective h.choose)
  else if ∃ x, s.Feasible x then .unbounded
  else .infeasible

theorem Solver.cheapest_faithful : (Solver.cheapest (K := K)).Faithful := by
  constructor
  · intro s x c h
    unfold cheapest at h
    split at h
    · next hex =>
      obtain ⟨rfl, rfl⟩ := Verdict.optimal.inj h
      exact ⟨hex.choose_spec, rfl⟩
    · split at h <;> cases h
  · intro s h x hx
    unfold cheapest at h
    split at h
    · cases h
    · split at h
      · cases h
      · next hno => exact hno ⟨x, hx⟩

theorem Solver.cheapest_finds : (Solver.cheapest (K := K)).Finds :=
  fun _ h => ⟨_, _, dif_pos h⟩

def Graph.weightAcross (g : Graph K) (weightName : String) (part : Node → Nat) : K :=
  ((g.edges.filter fun e => part e.name.u ≠ part e.name.v).map fun e => e.cost weightName).sum

namespace Division

def radiiDrawn {S : Type} [Dice S K] (dims : Nat) : Nat → S → List (List K)
  | 0, _ => []
  | n + 1, dice => (drawRadii dims dice).1 :: radiiDrawn dims n (drawRadii dims dice).2

theorem better_least (found : Option (Division K)) (d : Division K) :
    ∃ b, better found d = some b ∧ b ∈ found.toList ++ [d] ∧
      ∀ d' ∈ found.toList ++ [d], b.weight ≤ d'.weight := by
  cases found with
  | none => exact ⟨d, rfl, by simp, by simp⟩
  | some b =>
    by_cases hlt : d.weight < b.weight
    · exact ⟨d, if_pos hlt, by simp, by simp [hlt.le]⟩
    · exact ⟨b, if_neg hlt, by simp, by simpa using hlt⟩

theorem foldl_better_least (ds : List (Division K)) (found : Option (Division K))
    (h : found.isSome ∨ ds ≠ []) : ∃ b, ds.foldl better found = some b ∧
      b ∈ found.toList ++ ds ∧ ∀ d ∈ found.toList ++ ds, b.weight ≤ d.weight := by
  induction ds generalizing found with
  | nil =>
    obtain ⟨b, rfl⟩ := Option.isSome_iff_exists.mp (h.resolve_right fun hne => hne rfl)
    exact ⟨b, rfl, by simp, by simp⟩
  | cons d ds ih =>
    obtain ⟨b, hb, hmem, hleast⟩ := better_least found d
    obtain ⟨b', hb', hmem', hleast'⟩ := ih (some b) (.inl rfl)
    have hsplit : found.toList ++ d :: ds = (found.toList ++ [d]) ++ ds := by simp
    rw [hsplit, List.foldl_cons, hb]
    refine ⟨b', hb', ?_, fun d' hd' => ?_⟩
    · rcases List.mem_cons.mp hmem' with rfl | hmem'
      · exact List.mem_append_left _ hmem
      · exact List.mem_append_right _ hmem'
    · rcases List.mem_append.mp hd' with hd' | hd'
      · exact (hleast' b List.mem_cons_self).trans (hleast d' hd')
      · exact hleast' d' (List.mem_cons_of_mem _ hd')

variable {S : Type} [Dice S K]

theorem best_eq_foldl (m : Embedding K) (points : List (List K)) (n : Nat) (dice : S)
    (found : Option (Division K)) : best m points n dice found =
      ((radiiDrawn m.dims n dice).map (ofRadii m.spans points)).foldl better found := by
  induction n generalizing dice found with
  | zero => rfl
  | succ n ih => exact ih _ _

theorem radiiDrawn_spec {good : K → Prop} (hgood : ∀ dice : S, good (Dice.unit dice).1) (dims n : Nat)
    (dice : S) : ∀ radii ∈ radiiDrawn dims n dice, radii.length = dims ∧ ∀ r ∈ radii, good r := by
  induction n generalizing dice with
  | zero => simp [radiiDrawn]
  | succ n ih =>
    intro radii hradii
    rcases List.mem_cons.mp hradii with rfl | hradii
    · exact drawRadii_spec hgood dims dice
    · exact ih _ radii hradii

theorem best_least (m : Embedding K) (points : List (List K)) {n : Nat} (dice : S) (hn : 1 ≤ n) :
    ∃ d, best m points n dice none = some d ∧
      (∃ radii ∈ radiiDrawn m.dims n dice, d = ofRadii m.spans points radii) ∧
      ∀ radii ∈ radiiDrawn m.dims n dice, d.weight ≤ (ofRadii m.spans points radii).weight := by
  have hsome : (radiiDrawn m.dims n dice).map (ofRadii m.spans points) ≠ [] := by
    cases n with
    | zero => omega
    | succ n => simp [radiiDrawn]
  obtain ⟨d, hd, hmem, hleast⟩ := foldl_better_least _ none (.inr hsome)
  simp only [Option.toList_none, List.nil_append, List.mem_map] at hmem hleast
  obtain ⟨radii, hradii, rfl⟩ := hmem
  exact ⟨_, (best_eq_foldl ..).trans hd, ⟨radii, hradii, rfl⟩,
    fun radii' h => hleast _ ⟨radii', h, rfl⟩⟩

theorem part_lt {radii : List K} (h : radii ≠ []) (point : List K) : part radii point < radii.length := by
  have hlength := List.length_pos_iff.mpr h
  unfold part
  omega

theorem weightBetween_eq {spans : List (Span K)} {parts : List Nat}
    (hends : ∀ s ∈ spans, s.u < parts.length ∧ s.v < parts.length) :
    weightBetween spans parts =
      ((spans.filter fun s => parts.getD s.u 0 ≠ parts.getD s.v 0).map Span.weight).sum := by
  rw [weightBetween, Scalar.balancedSum_eq]
  refine congrArg (fun ss => (List.map Span.weight ss).sum) (List.filter_congr fun s hs => ?_)
  obtain ⟨hu, hv⟩ := hends s hs
  rw [decide_eq_decide, List.getElem?_eq_getElem hu, List.getElem?_eq_getElem hv]
  simp [hu, hv]

end Division

namespace Embedding

variable {m : Embedding K} {lp : Model K} {part : Nat → Nat}

def corners (part : Nat → Nat) (v i : Nat) : K := if i = part v then 1 else 0

structure Respects (m : Embedding K) (part : Nat → Nat) : Prop where
  lt : ∀ v < m.vertices.length, part v < m.dims
  own : ∀ v c, m.colors[v]? = some c → c ≠ 0 → part v = (c - 1).toNat

theorem Posed.embeds_corners (k : m.Posed) (h : m.Respects part) :
    m.Embeds (m.shortest (corners part)) := by
  refine k.embeds_shortest (fun v i => ?_) (fun v hv => ?_) fun v c hc hne => ?_
  · unfold corners
    split
    · exact zero_le_one
    · exact le_rfl
  · simp [corners, h.lt v hv]
  · rw [corners, if_pos (h.own v c hc hne).symm]

theorem Posed.exists_respects (k : m.Posed) : ∃ part, m.Respects part := by
  refine ⟨fun v => (m.colors.getD v 0 - 1).toNat, fun v hv => ?_, fun v c hc hne => ?_⟩
  · have hdims := k.dims
    rw [← k.length] at hv
    have hcolor := k.colors _ (List.getElem_mem hv)
    rw [List.getD_eq_getElem?_getD, List.getElem?_eq_getElem hv, Option.getD_some]
    omega
  · simp [hc]

theorem sum_corners {u v d : Nat} (hu : part u < d) (hv : part v < d) :
    ∑ i ∈ Finset.range d, |(corners part u i : K) - corners part v i| =
      if part u = part v then 0 else 2 := by
  by_cases hsame : part u = part v
  · simp [corners, hsame]
  have hterm (i : Nat) : |(corners part u i : K) - corners part v i| =
      corners part u i + corners part v i := by
    unfold corners
    by_cases hi : i = part u
    · simp [hi, hsame]
    · by_cases hj : i = part v
      · simp [hj, Ne.symm hsame]
      · simp [hi, hj]
  rw [if_neg hsame, Finset.sum_congr rfl fun i _ => hterm i, Finset.sum_add_distrib]
  simp only [corners, Finset.sum_ite_eq', Finset.mem_range, hu, hv, if_true]
  norm_num

theorem Posed.costOf_corners (k : m.Posed) (h : m.model = .ok lp) (hp : m.Respects part) :
    lp.costOf (m.shortest (corners part)) =
      2 * ((m.spans.filter fun s => part s.u ≠ part s.v).map Span.weight).sum := by
  rw [costOf_shortest h]
  have hends := k.ends
  generalize m.spans = spans at hends
  induction spans with
  | nil => simp
  | cons s spans ih =>
    obtain ⟨hu, hv⟩ := hends s List.mem_cons_self
    rw [List.map_cons, List.sum_cons, ih fun s hs => hends s (List.mem_cons_of_mem _ hs),
      sum_corners (hp.lt _ hu) (hp.lt _ hv)]
    by_cases hsame : part s.u = part s.v
    · simp [hsame]
    · simp only [hsame, if_false, List.filter_cons, ne_eq, not_false_iff, decide_true, if_true,
        List.map_cons, List.sum_cons]
      ring

end Embedding

theorem Action.exists_solveModel {P : Type} [Backend K] {s : Run P K} {st : Status} {lp : Model K}
    (h : Returns (Model.solve Backend.solver) s.lp st lp) :
    ∃ t, Returns solveModel s st t ∧ t.lp = lp ∧ t.problem = s.problem := by
  have hends : Ends solveModel s (fun st' t => st' = st ∧ t.lp = lp ∧ t.problem = s.problem)
      fun _ => False := by
    simp only [solveModel, ends_bind, ends_onModel, ends_model]
    refine h.ends.mpr ?_
    split
    · split <;> simp
    · simp
  obtain ⟨st', t, ht, rfl, hlp, hproblem⟩ := hends.exists_returns
  exact ⟨t, ht, hlp, hproblem⟩

namespace Embedding

variable {m : Embedding K} {lp : Model K} {x : List K}

theorem pointColumn_lt {v i : Nat} (hv : v < m.vertices.length) (hi : i < m.dims) :
    m.pointColumn v i < m.spans.length * m.dims + m.vertices.length * m.dims := by
  rw [pointColumn]
  nlinarith

theorem loaded_of_model (h : m.model = .ok lp) : lp.loaded = true := by
  obtain ⟨points, -, h⟩ := ok_bind_iff.mp h
  obtain rfl := Except.ok.inj h
  rfl

theorem points_of_solution {c : K}
    (hcolumns : lp.columns.length = m.spans.length * m.dims + m.vertices.length * m.dims)
    (hlength : x.length = lp.columns.length)
    (hs : lp.solution = some { values := x, objective := c }) :
    m.points lp = .ok (m.coordinates x) := by
  have hread {v i : Nat} (hv : v < m.vertices.length) (hi : i < m.dims) :
      ∃ y, lp.columnValue (m.pointColumn v i) = .ok y := by
    have hlt := hcolumns ▸ pointColumn_lt hv hi
    exact ⟨_, Model.columnValue_eq_ok.mpr
      ⟨hlt, _, hs, List.getElem?_eq_getElem (hlength ▸ hlt)⟩⟩
  obtain ⟨points, hpoints⟩ := exists_mapM (fun v =>
    (List.range m.dims).mapM fun i => lp.columnValue (m.pointColumn v i))
    (List.range m.vertices.length) fun v hv => exists_mapM _ _ fun i hi =>
      hread (List.mem_range.mp hv) (List.mem_range.mp hi)
  rw [Embedding.points, hpoints, points_eq hs hpoints]

end Embedding

namespace Multiway

variable {S : Type} [Backend K] [Dice S K] {p : Multiway K} {lp : Model K}

theorem exists_divide (k : p.embedding.Posed) (hvertices : 0 < p.embedding.vertices.length)
    (hroundings : 1 ≤ p.roundings) (hsolver : (Backend.solver : Solver K).Faithful)
    (hfinds : ∀ sys : System K, (∃ x, sys.Cheapest x) → ∃ x c, Backend.solver sys = .optimal x c)
    (h : p.embedding.model = .ok lp) (dice : S) :
    ∃ x d t, lp.system.Cheapest x ∧ Returns (divide dice) { problem := p } d t ∧
      t.lp.objective = .ok (lp.costOf x) ∧
      p.embedding.points t.lp = .ok (p.embedding.coordinates x) ∧
      Division.best p.embedding (p.embedding.coordinates x) p.roundings dice none = some d := by
  obtain ⟨part, hpart⟩ := k.exists_respects
  obtain ⟨x, c, hx⟩ := hfinds lp.system (k.exists_cheapest h ⟨_, k.embeds_corners hpart⟩)
  obtain ⟨hcheapest, rfl⟩ := hsolver.cheapest _ _ _ hx
  have hlength : lp.columns.length = p.embedding.spans.length * p.embedding.dims +
      p.embedding.vertices.length * p.embedding.dims := by
    rw [(Embedding.model_eq_ok h).1, Embedding.length_columns]
  have hcolumns : lp.columns ≠ [] := by
    rw [← List.length_pos_iff, hlength]
    have := Nat.mul_pos hvertices k.dims
    omega
  have hsolve := Model.returns_solve_optimal (Embedding.loaded_of_model h) hcolumns hx
  obtain ⟨t, ht, hlp, hproblem⟩ := Action.exists_solveModel (s := { problem := p, lp }) hsolve
  have hobjective : t.lp.objective = .ok (lp.costOf x) := by
    rw [hlp, ← Embedding.objective_of_model h, Model.signed, Embedding.direction_of_model h]
    rfl
  have hpoints : p.embedding.points t.lp = .ok (p.embedding.coordinates x) := by
    rw [hlp]
    exact Embedding.points_of_solution hlength
      (hcheapest.1.length.trans lp.bounds_length.symm) rfl
  obtain ⟨d, hd, -⟩ :=
    Division.best_least p.embedding (p.embedding.coordinates x) dice hroundings
  let embedded : Event K := .embedded p.embedding.dims (lp.costOf x)
  let divided : Event K :=
    .divided p.embedding.vertices.length p.embedding.dims d.weight p.roundings
  refine ⟨x, d, { t with trace := t.trace ++ [embedded] ++ [divided] }, hcheapest, ?_, hobjective,
    hpoints, hd⟩
  unfold divide
  refine returns_bind.mpr ⟨p, _, Action.returns_problem.mpr ⟨rfl, rfl⟩, ?_⟩
  rw [if_neg k.dims.ne']
  simp only [returns_bind, returns_lift, Action.returns_setModel]
  refine ⟨lp, _, ⟨h, rfl⟩, (), _, rfl, .optimal, t, ht, ?_⟩
  simp only [ne_eq, not_true_eq_false, if_false, returns_bind, returns_lift, Action.returns_model,
    Action.returns_note]
  refine ⟨t.lp, t, ⟨rfl, rfl⟩, _, t, ⟨hobjective, rfl⟩, (), _, rfl, _, _, ⟨hpoints, rfl⟩, ?_⟩
  rw [hd]
  simp only [returns_bind, Action.returns_note, returns_pure]
  exact ⟨(), _, rfl, trivial, rfl⟩

omit [Backend K] [Dice S K] in
theorem foldl_max_eq {cs : List Int} {c : Int} (hmem : c ∈ cs) (hle : ∀ b ∈ cs, b ≤ c) (h0 : 0 ≤ c) :
    cs.foldl max 0 = c := by
  have hbelow (cs : List Int) (a : Int) (ha : a ≤ c) (hle : ∀ b ∈ cs, b ≤ c) :
      cs.foldl max a ≤ c := by
    induction cs generalizing a with
    | nil => exact ha
    | cons b cs ih =>
      exact ih _ (max_le ha (hle b List.mem_cons_self)) fun d hd => hle d (List.mem_cons_of_mem _ hd)
  exact le_antisymm (hbelow cs 0 h0 hle) (le_foldl_max hmem 0)

/-- A graph that is not refused, with `k` colors. -/
structure Suits (g : Graph K) (weightName colorName : String) (roundings : Option Int) (k : Int) :
    Prop where
  valid : g.Valid
  undirected : g.kind ≠ .directed
  weights : ∀ e ∈ g.edges, 0 ≤ e.cost weightName
  colors : ∀ v ∈ g.vertices, ∀ c, Embedding.color g colorName v = .ok c → 0 ≤ c
  greatest : IsGreatest {c | ∃ v ∈ g.vertices, Embedding.color g colorName v = .ok c} k
  pos : 1 ≤ k
  roundings : ∀ r ∈ roundings, 1 ≤ r

variable {g : Graph K} {weightName colorName : String} {roundings : Option Int} {k : Int}

omit [Backend K] [Dice S K] in
theorem exists_color (g : Graph K) (name : String) (v : Node) :
    ∃ c, Embedding.color g name v = .ok c := by
  unfold Embedding.color
  split
  · exact ⟨0, rfl⟩
  · exact ⟨_, rfl⟩

omit [Backend K] [Dice S K] in
theorem Suits.exists_colors (h : Suits g weightName colorName roundings k) :
    ∃ colors, g.vertices.mapM (Embedding.color g colorName) = .ok colors ∧
      (∀ c ∈ colors, 0 ≤ c ∧ c ≤ k) ∧ colors.foldl max 0 = k := by
  obtain ⟨colors, hcolors⟩ :=
    exists_mapM (Embedding.color g colorName) g.vertices fun v _ => exists_color g colorName v
  have hbounds (c : Int) (hc : c ∈ colors) : 0 ≤ c ∧ c ≤ k := by
    obtain ⟨v, hv, hc⟩ := exists_of_mapM hcolors hc
    exact ⟨h.colors v hv c hc, h.greatest.2 ⟨v, hv, hc⟩⟩
  obtain ⟨v, hv, hgreatest⟩ := h.greatest.1
  obtain ⟨c, hmem, hc⟩ := exists_mem_of_mapM hcolors hv
  obtain rfl := Except.ok.inj (hgreatest.symm.trans hc)
  exact ⟨colors, hcolors, hbounds,
    foldl_max_eq hmem (fun b hb => (hbounds b hb).2) (hbounds _ hmem).1⟩

omit [Backend K] [Dice S K] in
theorem Suits.spans (h : Suits g weightName colorName roundings k) :
    ∀ s ∈ g.edges.map (Embedding.span g weightName),
      0 ≤ s.weight ∧ s.u < g.vertices.length ∧ s.v < g.vertices.length := by
  intro s hs
  obtain ⟨e, he, rfl⟩ := List.mem_map.mp hs
  obtain ⟨hu, hv⟩ := h.valid.edge_ends he
  exact ⟨h.weights e he, List.idxOf_lt_length_of_mem hu, List.idxOf_lt_length_of_mem hv⟩

omit [Backend K] [Dice S K] in
theorem Suits.roundings_pos (h : Suits g weightName colorName roundings k) (n : Nat) :
    1 ≤ roundings.getD (standardRoundings n) := by
  cases hr : roundings with
  | none =>
    simp only [standardRoundings, Option.getD_none]
    omega
  | some r => exact h.roundings r hr

omit [Backend K] [Dice S K] in
theorem Suits.exists_ofGraph (h : Suits g weightName colorName roundings k) :
    ∃ p, ofGraph g weightName colorName roundings = .ok p ∧ p.embedding.Posed ∧
      (p.embedding.dims : Int) = k ∧ p.embedding.vertices = g.vertices ∧
      p.embedding.spans = g.edges.map (Embedding.span g weightName) ∧ 1 ≤ p.roundings := by
  obtain ⟨colors, hcolors, hbounds, hmax⟩ := h.exists_colors
  have hpos := h.pos
  have hrounds := h.roundings_pos g.vertices.length
  have hm : Embedding.ofGraph g weightName colorName 0 = .ok
      { vertices := g.vertices, colors, spans := g.edges.map (Embedding.span g weightName)
        dims := 0 } :=
    ok_bind_iff.mpr ⟨colors, hcolors, rfl⟩
  refine ⟨{
    embedding := { vertices := g.vertices, colors
                   spans := g.edges.map (Embedding.span g weightName), dims := k.toNat }
    roundings := (roundings.getD (standardRoundings g.vertices.length)).toNat }, ?_,
    { ends := fun s hs => (h.spans s hs).2
      weights := fun s hs => (h.spans s hs).1
      length := (mapM_ok_iff.mp hcolors).length_eq.symm
      colors := fun c hc => ⟨(hbounds c hc).1, (hbounds c hc).2.trans (Int.self_le_toNat k)⟩
      dims := show 0 < k.toNat by omega },
    Int.toNat_of_nonneg (by omega), rfl, rfl, ?_⟩
  · unfold ofGraph
    dsimp only
    rw [if_neg h.undirected, if_neg (by omega)]
    refine ok_bind_iff.mpr ⟨_, hm, ?_⟩
    rw [if_neg (by simpa using fun c hc => (hbounds c hc).1),
      List.find?_eq_none.mpr fun s hs => by simpa using (h.spans s hs).1, ← hmax]
    rfl
  · show 1 ≤ (roundings.getD _).toNat
    omega

variable {x radii : List K}

omit [Backend K] [Dice S K]

theorem length_ofRadii (m : Embedding K) (x radii : List K) :
    (Division.ofRadii m.spans (m.coordinates x) radii).parts.length = m.vertices.length := by
  simp [Division.ofRadii, Embedding.coordinates]

theorem weight_ofRadii {m : Embedding K} (k : m.Posed) (x radii : List K) :
    let d := Division.ofRadii m.spans (m.coordinates x) radii
    d.weight =
      ((m.spans.filter fun s => d.parts.getD s.u 0 ≠ d.parts.getD s.v 0).map Span.weight).sum := by
  intro d
  refine Division.weightBetween_eq fun s hs => ?_
  rw [show (List.map _ _).length = m.vertices.length from length_ofRadii m x radii]
  exact k.ends s hs

theorem weightAcross_ofRadii {m : Embedding K} (k : m.Posed) (hg : g.Valid)
    (hvertices : m.vertices = g.vertices)
    (hspans : m.spans = g.edges.map (Embedding.span g weightName)) (x radii : List K) :
    let d := Division.ofRadii m.spans (m.coordinates x) radii
    d.weight = g.weightAcross weightName (d.numbered g.vertices).part := by
  intro d
  have hpart {v : Node} (hv : v ∈ g.vertices) :
      (d.numbered g.vertices).part v = d.parts.getD (g.vertices.idxOf v) 0 + 1 :=
    Division.part_numbered hv (hvertices ▸ length_ofRadii m x radii)
  have hweight : d.weight = ((m.spans.filter fun s =>
      d.parts.getD s.u 0 ≠ d.parts.getD s.v 0).map Span.weight).sum := weight_ofRadii k x radii
  clear_value d
  rw [hweight, hspans, List.filter_map, List.map_map, Graph.weightAcross]
  refine congrArg List.sum (congrArg (List.map _) (List.filter_congr fun e he => ?_))
  obtain ⟨hu, hv⟩ := hg.edge_ends he
  rw [Function.comp_apply, decide_eq_decide, hpart hu, hpart hv]
  simp [Embedding.span]

theorem part_ofRadii {m : Embedding K} {v : Nat} (hv : v < m.vertices.length) :
    (Division.ofRadii m.spans (m.coordinates x) radii).parts.getD v 0 =
      Division.part radii ((List.range m.dims).map fun i => x.getD (m.pointColumn v i) 0) := by
  simp [Division.ofRadii, Embedding.coordinates, hv]

theorem respects_ofRadii {m : Embedding K} (k : m.Posed) (h : m.model = .ok lp)
    (hx : m.Embeds x) (hlength : radii.length = m.dims) (hradii : ∀ r ∈ radii, 0 < r ∧ r ≤ 1) :
    m.Respects fun v => (Division.ofRadii m.spans (m.coordinates x) radii).parts.getD v 0 := by
  have hne : radii ≠ [] := by
    rintro rfl
    exact k.dims.ne hlength
  refine ⟨fun v hv => ?_, fun v c hc hcolor => ?_⟩
  · rw [part_ofRadii hv, ← hlength]
    exact Division.part_lt hne _
  · have hv : v < m.vertices.length := k.length ▸ (List.getElem?_eq_some_iff.mp hc).1
    have hnonneg := (k.colors c (List.mem_of_getElem? hc)).1
    obtain ⟨hlt, hcorner⟩ :=
      Embedding.corner_of_admits h ((Embedding.admits_iff h).mpr hx) hc (by omega)
    have hr := List.getElem?_eq_getElem (hlength.symm ▸ hlt)
    rw [part_ofRadii hv, Division.part_of_corner hcorner (by simp [hlength])
      (fun r hr => (hradii r hr).2) hr, if_pos (hradii _ (List.getElem_mem _)).1]

/-- No embedding that costs least costs more than twice what a random division cuts. -/
theorem costOf_le_ofRadii {m : Embedding K} (k : m.Posed) (h : m.model = .ok lp)
    (hx : lp.system.Cheapest x) (hlength : radii.length = m.dims)
    (hradii : ∀ r ∈ radii, 0 < r ∧ r ≤ 1) :
    lp.costOf x ≤ 2 * (Division.ofRadii m.spans (m.coordinates x) radii).weight := by
  have hembeds := (Embedding.feasible_iff_embeds h).mp hx.1
  have hrespects := respects_ofRadii k h hembeds hlength hradii
  have hcorners := (Embedding.feasible_iff_embeds h).mpr (k.embeds_corners hrespects)
  have hle := hx.2 _ hcorners
  rw [Embedding.objective_of_model h, Embedding.objective_of_model h,
    k.costOf_corners h hrespects] at hle
  rwa [weight_ofRadii k]

variable {S : Type} [Backend K] [Dice S K] {g : Graph K} {weightName colorName : String}
  {roundings : Option Int} {k : Int}

/-- A graph with colors is divided into as many parts as it has colors: every vertex is handed over
with one of the parts from one to their number. The weight of the division is that of the edges
between different parts, no random division that was made has less, and the embedding costs at most
twice as much. -/
theorem solve_weighs (h : Suits g weightName colorName roundings k)
    (hsolver : (Backend.solver : Solver K).Faithful) (hfinds : (Backend.solver : Solver K).Finds)
    (hdice : ∀ dice : S, 0 < (Dice.unit dice).1 ∧ (Dice.unit dice).1 < 1) (dice : S) :
    ∃ (p : Multiway K) (r : Parting K) (t : Run (Multiway K) K) (points : List (List K)) (c : K),
      ofGraph g weightName colorName roundings = .ok p ∧
      Returns (solve dice) { problem := p } r t ∧
      p.embedding.points t.lp = .ok points ∧ t.lp.objective = .ok c ∧
      (r.parts.map Prod.fst = g.vertices ∧
        ∀ v ∈ g.vertices, 1 ≤ r.part v ∧ (r.part v : Int) ≤ k) ∧
      r.weight = g.weightAcross weightName r.part ∧
      (∃ radii ∈ Division.radiiDrawn p.embedding.dims p.roundings dice,
        r = (Division.ofRadii p.embedding.spans points radii).numbered g.vertices) ∧
      (∀ radii ∈ Division.radiiDrawn p.embedding.dims p.roundings dice,
        r.weight ≤ g.weightAcross weightName
          ((Division.ofRadii p.embedding.spans points radii).numbered g.vertices).part) ∧
      c ≤ 2 * r.weight := by
  obtain ⟨p, hp, hposed, hdims, hvertices, hspans, hrounds⟩ := h.exists_ofGraph
  obtain ⟨lp, hlp⟩ := hposed.exists_model
  have hsome : 0 < p.embedding.vertices.length := by
    obtain ⟨v, hv, -⟩ := h.greatest.1
    exact hvertices ▸ List.length_pos_of_mem hv
  obtain ⟨x, d, t, hx, hdivide, hobjective, hpoints, hbest⟩ :=
    exists_divide hposed hsome hrounds hsolver hfinds hlp dice
  obtain ⟨d', hd', ⟨radii, hradii, rfl⟩, hleast⟩ :=
    Division.best_least p.embedding (p.embedding.coordinates x) dice hrounds
  obtain rfl := Option.some.inj (hbest.symm.trans hd')
  have hweight := weightAcross_ofRadii hposed h.valid hvertices hspans x
  have hlength := length_ofRadii p.embedding x radii
  obtain ⟨hradiiLength, hgood⟩ : radii.length = p.embedding.dims ∧ ∀ r ∈ radii, 0 < r ∧ r < 1 :=
    Division.radiiDrawn_spec hdice _ _ dice radii hradii
  have hgood (r : K) (hr : r ∈ radii) : 0 < r ∧ r ≤ 1 := ⟨(hgood r hr).1, (hgood r hr).2.le⟩
  have hrespects := respects_ofRadii hposed hlp ((Embedding.feasible_iff_embeds hlp).mp hx.1)
    hradiiLength hgood
  refine ⟨p, _, t, _, _, hp, returns_solve.mpr ⟨_, hdivide, by rw [hvertices]⟩, hpoints,
    hobjective, ⟨?_, fun v hv => ?_⟩, hweight radii, ⟨radii, hradii, rfl⟩,
    fun radii' h' => (hleast radii' h').trans_eq (hweight radii'),
    costOf_le_ofRadii hposed hlp hx hradiiLength hgood⟩
  · rw [Division.numbered, List.map_map]
    exact List.map_fst_zip (by rw [hlength, hvertices])
  · have hlt := hrespects.lt (g.vertices.idxOf v) (by
      rw [hvertices]
      exact List.idxOf_lt_length_of_mem hv)
    rw [Division.part_numbered hv (by rw [hlength, hvertices])]
    omega

theorem pair_suits : Suits pair "weight" "color" (some 3) 2 := by
  have hone : Embedding.color pair "color" (.number 1) = .ok 1 := rfl
  have htwo : Embedding.color pair "color" (.number 2) = .ok 2 := rfl
  have hcolor {v : Node} {c : Int} (hv : v ∈ pair.vertices)
      (hc : Embedding.color pair "color" v = .ok c) : c = 1 ∨ c = 2 := by
    rcases List.mem_pair.mp hv with rfl | rfl
    · exact .inl (Except.ok.inj (hc.symm.trans hone))
    · exact .inr (Except.ok.inj (hc.symm.trans htwo))
  refine ⟨⟨by decide, by decide, by decide⟩, by decide, by decide +kernel, fun v hv c hc => ?_,
    ⟨⟨.number 2, by decide, htwo⟩, ?_⟩, by norm_num, by simp⟩
  · have := hcolor hv hc
    omega
  · rintro c ⟨v, hv, hc⟩
    have := hcolor hv hc
    omega

theorem pair_weighs :
    let _ : Backend ℚ := { solver := Solver.cheapest, flow := Augment.finder, passes := 1 }
    let _ := halves
    Suits pair "weight" "color" (some 3) 2 ∧
    ∃ (p : Multiway ℚ) (r : Parting ℚ) (t : Run (Multiway ℚ) ℚ) (c : ℚ),
      ofGraph pair "weight" "color" (some 3) = .ok p ∧ Returns (solve ()) { problem := p } r t ∧
      t.lp.objective = .ok c ∧ r.parts.map Prod.fst = [.number 1, .number 2] ∧
      r.weight = pair.weightAcross "weight" r.part ∧ c ≤ 2 * r.weight := by
  let _ : Backend ℚ := { solver := Solver.cheapest, flow := Augment.finder, passes := 1 }
  let _ := halves
  obtain ⟨p, r, t, points, c, hp, hr, -, hc, ⟨hvertices, -⟩, hweight, -, -, hle⟩ :=
    solve_weighs pair_suits Solver.cheapest_faithful Solver.cheapest_finds
      (fun _ => ⟨show (0 : ℚ) < 1 / 2 by norm_num, show (1 / 2 : ℚ) < 1 by norm_num⟩) ()
  exact ⟨pair_suits, p, r, t, c, hp, hr, hc, hvertices, hweight, hle⟩

end Multiway

end LPRounding
