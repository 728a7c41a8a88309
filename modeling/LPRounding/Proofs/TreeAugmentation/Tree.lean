import LPRounding.Proofs.Exact
import LPRounding.Proofs.Returns
import LPRounding.Proofs.Graph.Edges
import LPRounding.Proofs.Graph.Bypass
import LPRounding.Problem.TreeAugmentation

/-!
The tree of an instance, its links and the tree path of each. The columns in the row of a tree edge
are the links across the cut that the tree has there.
-/

namespace LPRounding.TreeAugmentation

set_option linter.unusedSectionVars false

variable {K : Type} [Field K] [LinearOrder K] [IsStrictOrderedRing K] [FloorRing K]

def marked (g : Graph K) (mark : String) : Graph K :=
  (g.edges.filter (isMarked mark)).foldl (fun t e => t.addLink e.name.u e.name.v [])
    (g.vertices.foldl (fun t v => t.addVertex v) {})

theorem valid_marked {g : Graph K} (hg : g.Valid) (mark : String) :
    (marked g mark).Valid ∧ (∀ v, v ∈ (marked g mark).vertices ↔ v ∈ g.vertices) ∧
      ∀ u v, (marked g mark).Linked u v ↔ ∃ e ∈ g.edges, isMarked mark e = true ∧
        ((e.name.u = u ∧ e.name.v = v) ∨ (e.name.u = v ∧ e.name.v = u)) := by
  obtain ⟨h₁, h₂, h₃, h₄⟩ :=
    Graph.foldl_addVertex g.vertices (Graph.valid_empty (K := K) .simple) rfl
  obtain ⟨h₅, h₆, h₇⟩ := Graph.foldl_addLink (fun e => e.name.u) (fun e => e.name.v)
    (g.edges.filter (isMarked mark)) h₁ h₂
  refine ⟨h₅, fun v => ?_, fun u v => ?_⟩
  · rw [marked, h₆, h₃]
    constructor
    · rintro ((hv | hv) | ⟨e, he, rfl | rfl⟩)
      · cases hv
      · exact hv
      · exact (hg.edge_ends (List.mem_of_mem_filter he)).1
      · exact (hg.edge_ends (List.mem_of_mem_filter he)).2
    · exact fun hv => .inl (.inr hv)
  · have hnone : ¬ ({ kind := .simple } : Graph K).Linked u v := by simp [Graph.Linked]
    rw [marked, h₇, h₄, or_iff_right hnone]
    simp only [List.mem_filter, and_assoc]

/-- What the construction of an instance establishes: the tree and the links are between the
vertices, and each route is the tree path of its link. -/
structure Laid (p : TreeAugmentation K) : Prop where
  nodup : p.vertices.Nodup
  ends : ∀ e ∈ p.tree, e.1 ∈ p.vertices ∧ e.2 ∈ p.vertices
  routes : ∀ l ∈ p.links, ∀ path, l.route = some path →
    IsPath p.tree l.name.u l.name.v path

theorem isPath_of_route {vertices : List Node} {pairs : List (Node × Node)} {u v : Node}
    {path : List Node} (hends : ∀ p ∈ pairs, p.1 ∈ vertices ∧ p.2 ∈ vertices)
    (hu : u ∈ vertices)
    (h : route vertices (adjacency vertices.length (bothWays (places vertices pairs))) u v =
      some path) : IsPath pairs u v path := by
  obtain ⟨ps, hps, rfl⟩ := Option.map_eq_some_iff.mp h
  refine .of_places hends hu (isPath_of_shortestPath (fun a b hb => ?_) hps)
  exact mem_bothWays.mp (mem_adjacency.mp hb).2

theorem make_eq_ok {ε : K} {g : Graph K} {mark costName : String} {entries : List Choice}
    {p : TreeAugmentation K} (h : make ε g mark costName entries = .ok p) :
    0 ≤ ε ∧ p.tolerance = ⟨ε⟩ ∧ p.vertices = g.vertices ∧ p.tree = (marked g mark).pairs ∧
      p.sink = .ofList entries ∧ p.chosen = [] ∧
      p.links = (g.edges.filter fun e => !isMarked mark e).map fun e =>
        { name := e.name, cost := e.cost costName
          route := route g.vertices (adjacency g.vertices.length
            (bothWays (places g.vertices (marked g mark).pairs))) e.name.u e.name.v } := by
  by_cases hk : g.kind = .simple
  · simp only [make, hk, ne_eq, not_true_eq_false, if_false] at h
    obtain ⟨tol, htol, h⟩ := ok_bind_iff.mp h
    obtain ⟨hε, rfl⟩ := Tolerance.ofEpsilon_eq_ok.mp htol
    rw [List.partition_eq_filter_filter] at h
    obtain rfl := Except.ok.inj h
    exact ⟨hε, rfl, rfl, rfl, rfl, rfl, rfl⟩
  · simp only [make, ne_eq, hk, not_false_eq_true, if_true] at h
    cases h

theorem simple_of_make {ε : K} {g : Graph K} {mark costName : String} {entries : List Choice}
    (h : make ε g mark costName entries = .ok p) : g.kind = .simple ∧ p.pairs = g.pairs := by
  by_cases hk : g.kind = .simple
  · simp only [make, hk, ne_eq, not_true_eq_false, if_false] at h
    obtain ⟨tol, -, h⟩ := ok_bind_iff.mp h
    obtain rfl := Except.ok.inj h
    exact ⟨hk, rfl⟩
  · simp only [make, ne_eq, hk, not_false_eq_true, if_true] at h
    cases h

theorem laid_of_make {ε : K} {g : Graph K} {mark costName : String} {entries : List Choice}
    {p : TreeAugmentation K} (hg : g.Valid) (h : make ε g mark costName entries = .ok p) :
    p.Laid := by
  obtain ⟨-, -, hv, ht, -, -, hl⟩ := make_eq_ok h
  obtain ⟨hvalid, hmem, -⟩ := valid_marked hg mark
  have hends : ∀ e ∈ p.tree, e.1 ∈ p.vertices ∧ e.2 ∈ p.vertices := by
    intro f hf
    rw [ht] at hf
    obtain ⟨e, he, rfl⟩ := List.mem_map.mp hf
    rw [hv, ← hmem, ← hmem]
    exact hvalid.edge_ends he
  refine ⟨hv ▸ hg.nodup, hends, ?_⟩
  intro l hlm path hr
  rw [hl] at hlm
  obtain ⟨e, he, rfl⟩ := List.mem_map.mp hlm
  have hu := (hg.edge_ends (List.mem_of_mem_filter he)).1
  rw [← hv] at hu
  rw [← hv, ← ht] at hr
  exact isPath_of_route hends hu hr

theorem adjacent_tree {ε : K} {g : Graph K} {mark costName : String} {entries : List Choice}
    {p : TreeAugmentation K} (hg : g.Valid) (h : make ε g mark costName entries = .ok p)
    {u v : Node} : Adjacent p.tree u v ↔ ∃ e ∈ g.edges, isMarked mark e = true ∧
      ((e.name.u = u ∧ e.name.v = v) ∨ (e.name.u = v ∧ e.name.v = u)) := by
  obtain ⟨-, -, -, ht, -, -, -⟩ := make_eq_ok h
  obtain ⟨hvalid, -, hlinked⟩ := valid_marked hg mark
  rw [ht, hvalid.adjacent_pairs, hlinked]

theorem along_of_passes {f : Node × Node} {path : List Node} :
    passes f path = true ↔ Along f path := by
  induction path with
  | nil => simp [passes, Along]
  | cons a rest ih =>
    cases rest with
    | nil =>
      have hno : ¬ Along f [a] := by
        rintro ⟨pre, b, c, post, heq, -⟩
        have := congrArg List.length heq
        simp at this
        omega
      simp [passes, hno]
    | cons b rest =>
      rw [passes, Bool.or_eq_true, Bool.or_eq_true, ih, decide_eq_true_eq, decide_eq_true_eq]
      constructor
      · rintro (h | ⟨pre, c, d, post, heq, h⟩)
        · exact ⟨[], a, b, rest, rfl, h⟩
        · exact ⟨a :: pre, c, d, post, by rw [heq, List.cons_append], h⟩
      · rintro ⟨pre, c, d, post, heq, h⟩
        cases pre with
        | nil =>
          obtain ⟨rfl, hr⟩ := List.cons.inj heq
          obtain ⟨rfl, -⟩ := List.cons.inj hr
          exact .inl h
        | cons _ pre =>
          obtain ⟨rfl, hr⟩ := List.cons.inj heq
          exact .inr ⟨pre, c, d, post, hr, h⟩

variable {p : TreeAugmentation K}

theorem Laid.tree_of_issue (hp : p.Laid) (h : p.issue = none) :
    p.tree.length + 1 = p.vertices.length ∧ Connected p.vertices p.tree := by
  unfold issue at h
  split at h
  · cases h
  split at h
  · cases h
  next hlen hcon =>
    exact ⟨by omega, connected_of_isConnected hp.ends (by simpa using hcon)⟩

theorem twoEdgeConnected_of_issue (h : p.issue = none) :
    isTwoEdgeConnected p.vertices p.pairs = true := by
  unfold issue at h
  split at h
  · cases h
  split at h
  · cases h
  split at h
  · cases h
  next htwo => simpa using htwo

/-- A link covers just the tree edges that lie between its ends. -/
theorem Laid.covers_iff (hp : p.Laid) (h : p.issue = none) {l : TreeLink K} (hl : l ∈ p.links)
    (hr : l.route ≠ none) {i : Nat} {f : Node × Node} (hi : p.tree[i]? = some f) :
    covers f l = true ↔ ¬ Joined (p.tree.eraseIdx i) l.name.u l.name.v := by
  obtain ⟨path, hpath⟩ := Option.ne_none_iff_exists'.mp hr
  obtain ⟨hlen, hcon⟩ := hp.tree_of_issue h
  rw [← (hp.routes l hl path hpath).along_iff (hcon.acyclic hp.nodup hlen) hi, covers, hpath,
    Option.any_some, along_of_passes]

end LPRounding.TreeAugmentation
