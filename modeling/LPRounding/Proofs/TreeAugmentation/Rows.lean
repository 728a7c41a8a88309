import LPRounding.Proofs.Graph.Search
import LPRounding.Proofs.TreeAugmentation.Feasible

/-!
Tree augmentation: the rows are the cuts of the tree. Every link of an instance that passes its
check has a route. A walk along it passes each tree edge at most once, and those that it passes are
the ones whose loss parts the ends of the link; so links over every tree edge are just those that
leave the tree without a bridge.
-/

namespace LPRounding.TreeAugmentation

set_option linter.unusedSectionVars false

variable {K : Type} [Field K] [LinearOrder K] [IsStrictOrderedRing K] [FloorRing K]
  {p : TreeAugmentation K}

/-- What a walk along a path lists under a tree edge: the column once for each step along it. -/
def walked (f : Node × Node) (j : Nat) : List Node → List Nat
  | a :: b :: rest => (if (a, b) = f ∨ (b, a) = f then [j] else []) ++ walked f j (b :: rest)
  | _ => []

/-- What the walks along the routes of all links list under a tree edge. -/
def listed (p : TreeAugmentation K) (f : Node × Node) : List Nat :=
  p.links.zipIdx.flatMap fun e => walked f e.2 (e.1.route.getD [])

theorem mem_of_passes {f : Node × Node} {path : List Node} (h : passes f path = true) :
    f.1 ∈ path ∧ f.2 ∈ path := by
  obtain ⟨pre, a, b, post, rfl, rfl | rfl⟩ := along_of_passes.mp h
  · simp
  · simp

/-- A path that repeats no vertex goes along a tree edge at most once. -/
theorem walked_eq {f : Node × Node} {path : List Node} (j : Nat) (h : path.Nodup) :
    walked f j path = if passes f path then [j] else [] := by
  induction path with
  | nil => rfl
  | cons a rest ih =>
    cases rest with
    | nil => rfl
    | cons b rest =>
      obtain ⟨ha, hrest⟩ := List.nodup_cons.mp h
      rw [walked, passes, ih hrest]
      by_cases hstep : (a, b) = f ∨ (b, a) = f
      · have hlater : passes f (b :: rest) = false := by
          by_contra hpass
          obtain ⟨h₁, h₂⟩ := mem_of_passes (Bool.eq_true_of_not_eq_false hpass)
          rcases hstep with rfl | rfl
          · exact ha h₁
          · exact ha h₂
        rcases hstep with rfl | rfl <;> simp [hlater]
      · obtain ⟨h₁, h₂⟩ := not_or.mp hstep
        simp [h₁, h₂]

theorem Laid.listed_eq (hp : p.Laid) (f : Node × Node) : p.listed f = p.coveredBy f := by
  have hwalk {e : TreeLink K × Nat} (he : e ∈ p.links.zipIdx) :
      walked f e.2 (e.1.route.getD []) = if covers f e.1 then [e.2] else [] := by
    cases hroute : e.1.route with
    | none => simp [covers, hroute, walked]
    | some path =>
      have hmem : e.1 ∈ p.links := List.mem_of_getElem? (List.mem_zipIdx_iff_getElem?.mp he)
      rw [Option.getD_some, walked_eq _ (hp.routes _ hmem path hroute).nodup, covers, hroute,
        Option.any_some]
  unfold listed coveredBy Model.positions
  rw [List.flatMap_congr fun e he => hwalk he]
  induction p.links.zipIdx with
  | nil => rfl
  | cons e es ih => by_cases hc : covers f e.1 <;> simp [hc, ih]

theorem routed_of_make {ε : K} {g : Graph K} {mark costName : String} {entries : List Choice}
    (hg : g.Valid) (hmake : make ε g mark costName entries = .ok p) (hissue : p.issue = none) :
    ∀ l ∈ p.links, l.route ≠ none := by
  have hp := laid_of_make hg hmake
  obtain ⟨-, -, hvertices, htree, -, -, hlinks⟩ := make_eq_ok hmake
  have hends := hp.ends
  have hcon := (hp.tree_of_issue hissue).2
  rw [hvertices, htree] at hends hcon
  intro l hl
  rw [hlinks] at hl
  obtain ⟨e, he, rfl⟩ := List.mem_map.mp hl
  obtain ⟨hu, hv⟩ := hg.edge_ends (List.mem_of_mem_filter he)
  simp only [route, ne_eq, Option.map_eq_none_iff]
  exact shortestPath_places hends hu hv (hcon _ hu _ hv)

theorem find?_routes (hroutes : ∀ l ∈ p.links, l.route ≠ none) :
    p.links.find? (fun l => l.route.isNone) = none := by
  rw [List.find?_eq_none]
  intro l hl hnone
  exact hroutes l hl (Option.isNone_iff_eq_none.mp hnone)

theorem returns_build [Backend K] {s : Run (TreeAugmentation K) K}
    (hroutes : ∀ l ∈ s.problem.links, l.route ≠ none) :
    Returns build s () { s with lp := s.problem.model } := by
  simp only [build, returns_bind, Action.returns_problem]
  refine ⟨_, _, ⟨rfl, rfl⟩, ?_⟩
  rw [find?_routes hroutes]
  exact Action.returns_setModel.mpr rfl

theorem Sized.mem_listed {root : Node} (hp : Sized p root) {i j : Nat} {f : Node × Node}
    (hi : p.tree[i]? = some f) : j ∈ p.listed f ↔
      ∃ l, p.links[j]? = some l ∧ ¬ Joined (p.tree.eraseIdx i) l.name.u l.name.v := by
  rw [hp.listed_eq, coveredBy, Model.mem_positions]
  refine exists_congr fun l => and_congr_right fun hl => ?_
  have hmem := List.mem_of_getElem? hl
  exact hp.covers_iff hp.passed hmem (hp.routed l hmem) hi

theorem Sized.listed_iff {root : Node} (hp : Sized p root) {F : List Nat}
    (hF : ∀ j ∈ F, j < p.links.length) : (∀ f ∈ p.tree, ∃ j ∈ F, j ∈ p.listed f) ↔
      ∀ i, Connected p.vertices ((p.tree ++ F.map p.linkEnds).eraseIdx i) := by
  obtain ⟨hlen, hcon⟩ := hp.tree_of_issue hp.passed
  have hacyclic := hcon.acyclic hp.nodup hlen
  constructor
  · intro hcover i
    refine hcon.eraseIdx_append (fun k f hk => ?_) i
    obtain ⟨j, hj, hlisted⟩ := hcover f (List.mem_of_getElem? hk)
    obtain ⟨l, hl, hparted⟩ := (hp.mem_listed hk).mp hlisted
    have hmem := List.mem_of_getElem? hl
    obtain ⟨path, hpath⟩ := Option.ne_none_iff_exists'.mp (hp.routed l hmem)
    refine ⟨_, List.mem_map_of_mem hj, path, ?_, ?_⟩
    · rw [linkEnds_eq hl]
      exact hp.routes l hmem path hpath
    · exact ((hp.routes l hmem path hpath).along_iff hacyclic hk).mpr hparted
  · intro hkept f hf
    obtain ⟨i, hlt, rfl⟩ := List.getElem_of_mem hf
    have hi := List.getElem?_eq_getElem hlt
    by_contra hno
    push Not at hno
    -- the tree without the edge joins the ends of every link, so it joins the ends of the edge
    have hlinks : ∀ j ∈ F, Joined (p.tree.eraseIdx i) (p.linkEnds j).1 (p.linkEnds j).2 := by
      intro j hj
      have hl := List.getElem?_eq_getElem (hF j hj)
      by_contra hparted
      rw [linkEnds_eq hl] at hparted
      exact hno j hj ((hp.mem_listed hi).mpr ⟨_, hl, hparted⟩)
    obtain ⟨hu, hv⟩ := hp.ends _ hf
    have haround := hkept i _ hu _ hv
    rw [List.eraseIdx_append_of_lt_length hlt] at haround
    refine hacyclic i _ _ hi (haround.of_adjacent fun a b hab => ?_)
    have hpair {a b : Node} (hm : (a, b) ∈ p.tree.eraseIdx i ++ F.map p.linkEnds) :
        Joined (p.tree.eraseIdx i) a b := by
      rcases List.mem_append.mp hm with hm | hm
      · exact .single (.inl hm)
      · obtain ⟨j, hj, heq⟩ := List.mem_map.mp hm
        have hjoined := hlinks j hj
        rw [heq] at hjoined
        exact hjoined
    rcases hab with hm | hm
    · exact hpair hm
    · exact (hpair hm).symm

theorem Sized.isTwoEdgeConnected_iff {root : Node} (hp : Sized p root) {F : List Nat}
    (hF : ∀ j ∈ F, j < p.links.length) :
    isTwoEdgeConnected p.vertices (p.tree ++ F.map p.linkEnds) = true ↔
      ∀ i, Connected p.vertices ((p.tree ++ F.map p.linkEnds).eraseIdx i) := by
  have hends : ∀ e ∈ p.tree ++ F.map p.linkEnds, e.1 ∈ p.vertices ∧ e.2 ∈ p.vertices := by
    intro e he
    rcases List.mem_append.mp he with he | he
    · exact hp.ends e he
    · obtain ⟨j, hj, rfl⟩ := List.mem_map.mp he
      rw [linkEnds_eq (List.getElem?_eq_getElem (hF j hj))]
      exact hp.linkEnds _ (List.getElem_mem _)
  constructor
  · intro htwo i
    by_cases hi : i < (p.tree ++ F.map p.linkEnds).length
    · exact connected_of_isTwoEdgeConnected hends htwo hi
    · rw [List.eraseIdx_of_length_le (not_lt.mp hi)]
      intro u hu v hv
      exact ((hp.tree_of_issue hp.passed).2 u hu v hv).mono (List.subset_append_left _ _)
  · have htwo := twoEdgeConnected_of_issue hp.passed
    simp only [isTwoEdgeConnected, Bool.and_eq_true, decide_eq_true_eq] at htwo
    exact isTwoEdgeConnected_of_connected hends hp.nodup htwo.1.1.1

/-- A tree edge of an instance that passes its check is listed once with each link between different
parts of the tree without that edge, loops included, and with no other; its row asks for one of
these links, and there is such a link. Links over every tree edge are just those that make the tree
2-edge-connected. -/
theorem rows_are_tree_cuts [Backend K] {ε : K} {g : Graph K} {mark costName : String}
    {entries : List Choice} (hg : g.Valid) (hmake : make ε g mark costName entries = .ok p)
    (hissue : p.issue = none) :
    (∀ s : Run (TreeAugmentation K) K, s.problem = p →
      Returns build s () { s with lp := p.model }) ∧
    p.model.columns.length = p.links.length ∧ p.model.rows.length = p.tree.length ∧
    (∀ (i : Nat) (f : Node × Node), p.tree[i]? = some f →
      (∀ (j : Nat) (l : TreeLink K), p.links[j]? = some l →
        (¬ Joined (p.tree.eraseIdx i) l.name.u l.name.v → (p.listed f).count j = 1) ∧
        (Joined (p.tree.eraseIdx i) l.name.u l.name.v → (p.listed f).count j = 0)) ∧
      ∃ r : Row K, p.model.rows[i]? = some r ∧ r.bound = { kind := .lower, lo := 1, hi := 0 } ∧
        r.coefs = (p.listed f).map (fun j => (j, 1)) ∧ r.coefs ≠ [] ∧
        ∀ j c, (j, c) ∈ r.coefs ↔ c = 1 ∧
          ∃ l, p.links[j]? = some l ∧ ¬ Joined (p.tree.eraseIdx i) l.name.u l.name.v) ∧
    ∀ F : List Nat, (∀ j ∈ F, j < p.links.length) →
      ((∀ f ∈ p.tree, ∃ j ∈ F, j ∈ p.listed f) ↔
        ∀ i, Connected p.vertices ((p.tree ++ F.map p.linkEnds).eraseIdx i)) ∧
      ((∀ f ∈ p.tree, ∃ j ∈ F, j ∈ p.listed f) ↔
        isTwoEdgeConnected p.vertices (p.tree ++ F.map p.linkEnds) = true) := by
  have hroutes := routed_of_make hg hmake hissue
  obtain ⟨root, hp⟩ := sized_of_make hg hmake hissue (find?_routes hroutes)
  refine ⟨?_, by simp [model], by simp [model], fun i f hi => ⟨fun j l hl => ?_, ?_⟩,
    fun F hF => ?_⟩
  · rintro s rfl
    exact returns_build hroutes
  · have hnodup : (p.listed f).Nodup := by
      rw [hp.listed_eq]
      exact Model.nodup_positions _ _
    constructor
    · intro hparted
      exact List.count_eq_one_of_mem hnodup ((hp.mem_listed hi).mpr ⟨l, hl, hparted⟩)
    · intro hjoined
      refine List.count_eq_zero_of_not_mem fun hmem => ?_
      obtain ⟨l', hl', hparted⟩ := (hp.mem_listed hi).mp hmem
      obtain rfl := Option.some.inj (hl.symm.trans hl')
      exact hparted hjoined
  · refine ⟨p.coverRow f, by simp [model, hi], rfl, ?_, ?_, fun j c => ?_⟩
    · rw [hp.listed_eq]
      rfl
    · obtain ⟨l, hl, hcov⟩ := exists_covering hg hmake hissue hroutes hi
      obtain ⟨j, hj⟩ := List.mem_iff_getElem?.mp hl
      have hmem : (j, 1) ∈ (p.coverRow f).coefs :=
        List.mem_map.mpr ⟨j, Model.mem_positions.mpr ⟨l, hj, hcov⟩, rfl⟩
      exact List.ne_nil_of_mem hmem
    · rw [← hp.mem_listed hi, hp.listed_eq, coverRow, List.mem_map]
      constructor
      · rintro ⟨_, hmem, heq⟩
        obtain ⟨rfl, rfl⟩ := Prod.mk.inj heq
        exact ⟨rfl, hmem⟩
      · rintro ⟨rfl, hmem⟩
        exact ⟨j, hmem, rfl⟩
  · exact ⟨hp.listed_iff hF, (hp.listed_iff hF).trans (hp.isTwoEdgeConnected_iff hF).symm⟩

def looped : Graph ℚ :=
  { triangle with
    links := triangle.links ++ [{ tail := .number 1, head := .number 1, key := 0, attrs := [] }] }

theorem looped_valid : looped.Valid :=
  ⟨by decide, by decide, by decide⟩

theorem looped_rows :
    let _ := triangleBackend
    ∃ p : TreeAugmentation ℚ, make (1 / 10) looped "tree" "cost" [] = .ok p ∧ p.issue = none ∧
      p.model.columns.length = 2 ∧ p.model.rows.length = 2 ∧
      (∀ (i : Nat) (f : Node × Node), p.tree[i]? = some f → (p.listed f).count 1 = 0 ∧
        ∃ r : Row ℚ, p.model.rows[i]? = some r ∧ r.coefs ≠ []) ∧
      isTwoEdgeConnected p.vertices (p.tree ++ [0].map p.linkEnds) = true := by
  let _ := triangleBackend
  obtain ⟨p, hp, htest⟩ := exists_ok (make (1 / 10 : ℚ) looped "tree" "cost" [])
    (fun p => p.issue.isNone && decide (p.tree.length = 2) && decide (p.links.length = 2) &&
      (p.links[1]?.any fun l : TreeLink ℚ => decide (l.name.u = l.name.v)) &&
      p.tree.all fun f => decide (0 ∈ p.listed f)) (by decide +kernel)
  simp only [Bool.and_eq_true, List.all_eq_true, decide_eq_true_eq,
    Option.isNone_iff_eq_none, Option.any_eq_true] at htest
  obtain ⟨⟨⟨⟨hissue, htree⟩, hlinks⟩, l, hl, hloop⟩, hcover⟩ := htest
  obtain ⟨-, hcolumns, hrows, hcuts, htwo⟩ := rows_are_tree_cuts looped_valid hp hissue
  refine ⟨p, hp, hissue, hcolumns.trans hlinks, hrows.trans htree, fun i f hi => ?_, ?_⟩
  · obtain ⟨hcount, r, hr, -, -, hne, -⟩ := hcuts i f hi
    refine ⟨(hcount 1 l hl).2 ?_, r, hr, hne⟩
    rw [hloop]
    exact .refl
  · refine (htwo [0] ?_).2.mp fun f hf => ⟨0, List.mem_singleton_self 0, hcover f hf⟩
    simp [hlinks]

end LPRounding.TreeAugmentation
