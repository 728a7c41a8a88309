import LPRounding.Proofs.TreeAugmentation.Progress
import LPRounding.Proofs.Run.Budget
import LPRounding.Proofs.Run.Families

/-!
Tree augmentation: what an answer costs, against any links that bypass every tree edge. Their point
is within every row of every solve. Where a link is taken its column is at a half or more, so what
the point gives up there pays for half of it, and rows that ask for one link over a tree edge never
notice that a column goes up to one.
-/

namespace LPRounding.TreeAugmentation

set_option linter.unusedSectionVars false

variable {K : Type} [Field K] [LinearOrder K] [IsStrictOrderedRing K] [FloorRing K]
  {p q : TreeAugmentation K} {m : Model K} {F : List (TreeLink K)}

/-- Each tree edge is on the tree path between the ends of one of the links. -/
def Covering (p : TreeAugmentation K) (F : List (TreeLink K)) : Prop :=
  ∀ f ∈ p.tree, ∃ l ∈ F, ∃ path, IsPath p.tree l.name.u l.name.v path ∧ Along f path

theorem Laid.covering_iff (hp : p.Laid) (hissue : p.issue = none)
    (hroutes : ∀ l ∈ p.links, l.route ≠ none) (hF : F ⊆ p.links) :
    Covering p F ↔ ∀ f ∈ p.tree, ∃ l ∈ F, covers f l = true := by
  obtain ⟨hlen, hcon⟩ := hp.tree_of_issue hissue
  have hacyclic := hcon.acyclic hp.nodup hlen
  constructor
  · intro h f hf
    obtain ⟨l, hl, path, hpath, halong⟩ := h f hf
    obtain ⟨i, hi⟩ := List.mem_iff_getElem?.mp hf
    refine ⟨l, hl, (hp.covers_iff hissue (hF hl) (hroutes l (hF hl)) hi).mpr ?_⟩
    exact (hpath.along_iff hacyclic hi).mp halong
  · intro h f hf
    obtain ⟨l, hl, hcov⟩ := h f hf
    obtain ⟨path, hpath⟩ := Option.ne_none_iff_exists'.mp (hroutes l (hF hl))
    rw [covers, hpath, Option.any_some] at hcov
    exact ⟨l, hl, path, hp.routes l (hF hl) path hpath, along_of_passes.mp hcov⟩

def coverRows (p : TreeAugmentation K) : Set (Row K) := { r | ∃ f ∈ p.tree, r = p.coverRow f }

theorem Framed.drawn (h : Framed p q m) : m.Drawn 0 p.coverRows := by
  intro i r _ hi
  have hlt : i < p.tree.length := h.rowCount ▸ (List.getElem?_eq_some_iff.mp hi).1
  have hrow : p.model.rows[i]? = some (p.coverRow p.tree[i]) := by simp [model, hlt]
  exact ⟨_, ⟨_, List.getElem_mem hlt, rfl⟩, h.ledger.grown.row hrow hi⟩

/-- The point of links over every tree edge meets all rows. -/
theorem meets_model {z : List K} (hz : Selects p.links F z)
    (hcover : ∀ f ∈ p.tree, ∃ l ∈ F, covers f l = true) : p.model.Meets ∅ z := by
  refine ⟨hz.admits (by simp [model]) (fun c hc => ?_) fun r hr => ?_, by simp⟩
  · obtain ⟨l, -, rfl⟩ := List.mem_map.mp hc
    exact ⟨rfl, le_rfl, zero_le_one⟩
  · obtain ⟨f, hf, rfl⟩ := List.mem_map.mp hr
    obtain ⟨l, hl, hcov⟩ := hcover f hf
    have hpos : 0 < F.countP (covers f) := List.countP_pos_iff.mpr ⟨l, hl, hcov⟩
    have hone : (1 : K) ≤ F.countP (covers f) := by exact_mod_cast hpos
    simp only [coverRow, coveredBy, hz.weigh_positions]
    exact hone

theorem framed_of_rounding [Backend K] {entries : List Choice}
    (hsolver : (Backend.solver : Solver K).Sound) (hsink : p.sink = .ofList entries)
    (hchosen : p.chosen = []) {n r : Nat} {columns : List Nat} {t : Run (TreeAugmentation K) K}
    (h : Engine.Reached policies policies.ask { problem := p, lp := p.model }
      (.rounding n columns r) t) : Framed p t.problem t.lp :=
  ((framed_keeps p hsolver).reached rfl (framed_model hsink hchosen) h).1.1

theorem thrifty [Backend K] {ε : K} {entries : List Choice}
    (hsolver : (Backend.solver : Solver K).Faithful) (hsink : p.sink = .ofList entries)
    (hchosen : p.chosen = []) (htol : p.tolerance.epsilon = ε) (hcosts : ∀ l ∈ p.links, 0 ≤ l.cost)
    (hzero : Engine.Exactly policies { problem := p, lp := p.model } {0}) :
    Engine.Thrifty policies { problem := p, lp := p.model } ∅ (1 / 2 - ε) := by
  have hrestrained := policies_committing (K := K).restrained tidy
  refine .of_commitHalf hrestrained
    (Engine.findsCheapest_of_plain hsolver hrestrained rfl rfl rfl) rfl hzero (fun j => ?_)
    (Set.empty_subset p.coverRows) ?_ fun {n r columns t} hreach => ?_
  · change 0 ≤ ((p.links.map column)[j]?.map Column.cost).getD 0
    rw [List.getElem?_map]
    cases hl : p.links[j]? with
    | none => exact le_rfl
    | some l => exact hcosts l (List.mem_of_getElem? hl)
  · rintro _ ⟨f, -, rfl⟩
    exact ⟨rfl, _, rfl⟩
  · have hframed := framed_of_rounding hsolver.sound hsink hchosen hreach
    refine ⟨(congrArg Tolerance.epsilon hframed.tolerance).trans htol, hframed.drawn,
      fun z hz i => ⟨hframed.getD_nonneg hz i, .inr ?_⟩⟩
    rintro _ ⟨f, -, rfl⟩
    exact le_rfl

theorem objective_eq [Backend K] {ε : K} {g : Graph K} {mark costName : String}
    {entries : List Choice} (hmake : make ε g mark costName entries = .ok p)
    (hsolver : (Backend.solver : Solver K).Truthful) {out : Outcome K}
    {t : Run (TreeAugmentation K) K}
    (h : Returns (Engine.run policies) { problem := p, lp := p.model } out t)
    (ho : out.status = .optimal) : out.objective = some t.problem.solutionCost := by
  obtain ⟨-, -, -, -, hsink, hchosen, -⟩ := make_eq_ok hmake
  have hstart : p.Tells entries p [] :=
    ⟨rfl, hsink ▸ hchosen ▸ .ofList entries _, by simpa using solutionCost_of_make hmake⟩
  obtain ⟨js, ⟨-, -, hcost⟩, hout⟩ := Engine.billed_of_run hsolver tidy (p.records entries)
    policies_committing (by simp [model, column]) rfl hstart h ho
  rw [hout, hcost]
  refine congrArg some (congrArg List.sum (List.map_congr_left fun j _ => ?_))
  simp [Model.costAt, model, column, Function.comp_def]

/-- If every column that was dropped was at zero, an answer costs at most twice as much, but for the
tolerance, as any links over every tree edge. -/
theorem augmentation_within_twice [Backend K] {ε : K} {g : Graph K} {mark costName : String}
    {entries : List Choice} (hg : g.Valid) (hmake : make ε g mark costName entries = .ok p)
    (hsolver : (Backend.solver : Solver K).Faithful) (hε : ε < 1 / 2)
    (hcosts : ∀ l ∈ p.links, 0 ≤ l.cost) {out : Outcome K} {t : Run (TreeAugmentation K) K}
    (h : Returns (Engine.solveProblem policies) { problem := p } out t)
    (ho : out.status = .optimal)
    (hzero : Engine.Exactly policies { problem := p, lp := p.model } {0})
    (hF : F.Sublist p.links) (hcover : Covering p F) :
    t.problem.solutionCost ≤ 2 / (1 - 2 * ε) * (F.map TreeLink.cost).sum := by
  obtain ⟨-, htol, -, -, hsink, hchosen, -⟩ := make_eq_ok hmake
  obtain ⟨u, v, hcheck, hinit, hrun⟩ := Engine.returns_solveProblem h
  obtain ⟨hfind, rfl⟩ := returns_begin hcheck hinit
  simp only [Roundable.check, returns_bind, Action.returns_problem, returns_pure] at hcheck
  obtain ⟨_, _, ⟨rfl, rfl⟩, hissue, -⟩ := hcheck
  have hroutes : ∀ l ∈ p.links, l.route ≠ none := by
    intro l hl hnone
    simpa [hnone] using List.find?_eq_none.mp hfind l hl
  obtain ⟨z, hz⟩ := exists_selects (K := K) hF
  have hmeets := meets_model hz
    (((laid_of_make hg hmake).covering_iff hissue hroutes hF.subset).mp hcover)
  obtain ⟨c, hout, hle⟩ := (thrifty hsolver hsink hchosen (congrArg Tolerance.epsilon htol) hcosts
    hzero).share_le policies_committing.standard hsolver.truthful (fun h => (tidy.feasible h).1)
    (by simp [model, column]) hmeets hrun ho
  obtain rfl := Option.some.inj
    ((objective_eq hmake hsolver.truthful hrun ho).symm.trans hout)
  have hcost : p.model.costOf z = (F.map TreeLink.cost).sum :=
    hz.costOf (by simp [model, column, Function.comp_def])
  exact le_twice hε (hcost ▸ hle)

def star : Graph ℚ where
  vertices := [.number 0, .number 1, .number 2, .number 3]
  links := [
    { tail := .number 0, head := .number 1, key := 0, attrs := [("tree", 1)] },
    { tail := .number 0, head := .number 2, key := 0, attrs := [("tree", 1)] },
    { tail := .number 0, head := .number 3, key := 0, attrs := [("tree", 1)] },
    { tail := .number 1, head := .number 2, key := 0, attrs := [("cost", 1)] },
    { tail := .number 1, head := .number 3, key := 0, attrs := [("cost", 1)] },
    { tail := .number 2, head := .number 3, key := 0, attrs := [("cost", 1)] }]

theorem star_valid : star.Valid :=
  ⟨by decide, by decide, by decide⟩

theorem star_within_twice :
    let _ := provingBackend [([1 / 2, 1 / 2, 1 / 2], { atMost := [1 / 2, 1 / 2, 1 / 2] }),
      ([1, 1, 1], {})]
    ∃ (p : TreeAugmentation ℚ) (out : Outcome ℚ) (t : Run (TreeAugmentation ℚ) ℚ)
      (F : List (TreeLink ℚ)),
      make (1 / 10) star "tree" "cost" [] = .ok p ∧
      Returns (Engine.solveProblem policies) { problem := p } out t ∧ out.status = .optimal ∧
      F.Sublist p.links ∧ Covering p F ∧ (F.map TreeLink.cost).sum = 2 ∧
      t.problem.solutionCost ≤ 2 / (1 - 2 * (1 / 10)) * (F.map TreeLink.cost).sum := by
  let points : List (List ℚ × Prices ℚ) :=
    [([1 / 2, 1 / 2, 1 / 2], { atMost := [1 / 2, 1 / 2, 1 / 2] }), ([1, 1, 1], {})]
  let _ := provingBackend points
  obtain ⟨p, hp, htest⟩ := exists_ok (make (1 / 10 : ℚ) star "tree" "cost" [])
    (fun p => p.issue.isNone && (p.links.all fun l => l.route.isSome && decide (0 ≤ l.cost)) &&
      (p.tree.all fun f => (p.links.take 2).any (covers f)) &&
      decide (((p.links.take 2).map TreeLink.cost).sum = 2) && solves policies p)
    (by decide +kernel)
  simp only [Bool.and_eq_true, List.all_eq_true, List.any_eq_true, decide_eq_true_eq,
    Option.isNone_iff_eq_none, Option.isSome_iff_ne_none] at htest
  obtain ⟨⟨⟨⟨hissue, hlinks⟩, hcover⟩, hsum⟩, hrun⟩ := htest
  obtain ⟨out, t, h, ho⟩ := exists_answer hrun
  have hF : (p.links.take 2).Sublist p.links := List.take_sublist 2 p.links
  have hcovering : Covering p (p.links.take 2) :=
    ((laid_of_make star_valid hp).covering_iff hissue (fun l hl => (hlinks l hl).1)
      hF.subset).mpr hcover
  have hsolver : (Backend.solver : Solver ℚ).Faithful := Solver.proving_faithful _ _
  obtain ⟨-, htol, -, -, hsink, hchosen, -⟩ := make_eq_ok hp
  have hlands : Engine.Lands policies { problem := p, lp := p.model }
      (Engine.Crisp (1 / 10) [0]) := by
    refine Engine.lands_of_solver _ policies_committing.standard (fun h => (tidy.feasible h).1)
      (fun s x c hx => ?_) nofun
    have hpoints : ∀ x ∈ points.map Prod.fst, Engine.Crisp (1 / 10) [0] x := by
      unfold Engine.Crisp
      decide +kernel
    exact hpoints x (Solver.mem_of_proving hx)
  have hzero : Engine.Exactly policies { problem := p, lp := p.model } {0} := by
    refine hlands.exactly_of_commitHalf (policies_committing.restrained tidy) rfl fun hreach => ?_
    have hframed := framed_of_rounding hsolver.sound hsink hchosen hreach
    exact congrArg Tolerance.epsilon (hframed.tolerance.trans htol)
  exact ⟨p, out, t, _, hp, h, ho, hF, hcovering, hsum,
    augmentation_within_twice star_valid hp hsolver (by norm_num) (fun l hl => (hlinks l hl).2) h ho
      hzero hF hcovering⟩

end LPRounding.TreeAugmentation
