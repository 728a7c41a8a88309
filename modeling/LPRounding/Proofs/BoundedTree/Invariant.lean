import LPRounding.Proofs.Run.Invariant
import LPRounding.Proofs.Run.Separation
import LPRounding.Proofs.Run.Ledger
import LPRounding.Proofs.Graph.Edges
import LPRounding.Problem.BoundedTree

/-!
What a run for a spanning tree with degree bounds keeps. A degree row goes only when the edges at
its vertex that were not dropped exceed the bound by one at most, and later on there are never more
of them.
-/

namespace LPRounding.BoundedTree

set_option linter.unusedSectionVars false

variable {K S : Type} [Field K] [LinearOrder K] [IsStrictOrderedRing K] [FloorRing K]
  {p q : BoundedTree K S} {m : Model K} {v : Node}

theorem make_eq_ok {ε : K} {g : Graph K} {bounds : List (Node × Int)} {costName : String}
    {entries : List Choice} {strategy : Strategy} {dice : S}
    (h : make ε g bounds costName entries strategy dice = .ok p) :
    p.graph = g ∧ p.edges = g.edges ∧ p.bounds = bounds ∧ p.tolerance.epsilon = ε ∧ 0 ≤ ε ∧
      p.sink = .ofList entries ∧ p.committed = [] := by
  unfold make at h
  split at h
  · cases h
  simp only [ok_bind_iff] at h
  obtain ⟨tol, ht, h⟩ := h
  obtain rfl := Except.ok.inj h
  obtain ⟨hε, rfl⟩ := Tolerance.ofEpsilon_eq_ok.mp ht
  exact ⟨rfl, rfl, rfl, rfl, hε, rfl, rfl⟩

def incident (p : BoundedTree K S) (v : Node) : List Nat :=
  Model.positions (fun e => e.name.u = v || e.name.v = v) p.edges

def kept (p : BoundedTree K S) (m : Model K) (v : Node) : Nat :=
  (p.incident v).countP fun j => m.fixedAt j ≠ some 0

/-- What holds of a problem `q` and its model throughout a run that started with `p`. -/
structure Kept (p q : BoundedTree K S) (m : Model K) : Prop where
  same : ∃ sink committed oracle, q = { p with sink, committed, oracle }
  ledger : Ledger (p.edges.map Edge.name) p.sink.entries p.model m q.sink
  committed : q.committed = ends q.sink.added
  relaxed : ∀ (i : Nat) r, m.rows[i]? = some r → r.relaxed = true →
    ∃ v, p.rowVertex i = some v ∧ (p.kept m v : ℤ) ≤ (p.bound? v).getD 0 + 1

theorem kept_model {entries : List Choice} (hs : p.sink = .ofList entries)
    (hc : p.committed = []) : Kept p p p.model := by
  refine ⟨⟨_, _, _, rfl⟩, ?_, ?_, ?_⟩
  · rw [hs]
    exact .ofList (by simp [model, column])
  · rw [hc, hs]
    simp [Sink.added, Sink.ofList, ends]
  · intro i r hr hk
    have hmem := List.mem_of_getElem? hr
    rcases List.mem_cons.mp hmem with rfl | hmem
    · cases hk
    · obtain ⟨w, -, rfl⟩ := List.mem_map.mp hmem
      cases hk

theorem Kept.solve {solver : Solver K} (hsolver : solver.Sound) {m' : Model K} (h : Kept p q m)
    (hs : Returns (Model.solve solver) m .optimal m') : Kept p q m' ∧ m'.Solved := by
  refine ⟨⟨h.same, h.ledger.solve hs, h.committed, ?_⟩, Model.solved_of_solve hsolver hs⟩
  obtain ⟨s, rfl, -⟩ := Model.returns_solve hs
  exact h.relaxed

theorem Kept.search {o : Oracle K S Node (TreePoint K)} (h : Kept p q m) :
    Kept p (home.set q o) m := by
  obtain ⟨sink, committed, oracle, rfl⟩ := h.same
  exact ⟨⟨_, _, _, rfl⟩, h.ledger, h.committed, h.relaxed⟩

theorem Kept.append {r : Row K} (h : Kept p q m) (hr : r.relaxed = false) :
    Kept p q { m with rows := m.rows ++ [r] } := by
  refine ⟨h.same, h.ledger.append r, h.committed, ?_⟩
  intro i r' hr' hk
  by_cases hi : i < m.rows.length
  · exact h.relaxed i r' (by rwa [List.getElem?_append_left hi] at hr') hk
  · rw [List.getElem?_append_right (Nat.le_of_not_lt hi)] at hr'
    obtain rfl := List.mem_singleton.mp (List.mem_of_getElem? hr')
    rw [hr] at hk
    cases hk

theorem kept_fix {m' : Model K} {j : Nat} {c : K} (hf : Returns (Model.fixColumn j c) m () m')
    (v : Node) : p.kept m' v ≤ p.kept m v := by
  obtain ⟨col, hc, hn, rfl⟩ := Model.returns_fixColumn.mp hf
  refine List.countP_mono_left fun i _ hi => ?_
  rw [Model.fixedAt_set hc] at hi
  split at hi
  · next hij =>
    subst hij
    simp [Model.fixedAt, hc, hn]
  · exact hi

theorem Kept.relaxed_fix {m' : Model K} {j : Nat} {c : K} (h : Kept p q m)
    (hf : Returns (Model.fixColumn j c) m () m') (i : Nat) (r : Row K) (hr : m'.rows[i]? = some r)
    (hk : r.relaxed = true) :
    ∃ v, p.rowVertex i = some v ∧ (p.kept m' v : ℤ) ≤ (p.bound? v).getD 0 + 1 := by
  have hrows : m'.rows = m.rows := by
    obtain ⟨col, -, -, rfl⟩ := Model.returns_fixColumn.mp hf
    rfl
  obtain ⟨v, hv, hle⟩ := h.relaxed i r (hrows ▸ hr) hk
  have := p.kept_fix hf v
  exact ⟨v, hv, by omega⟩

theorem Kept.drop {m' : Model K} {j : Nat} (h : Kept p q m)
    (hf : Returns (Model.fixColumn j 0) m () m') : Kept p q m' :=
  ⟨h.same, h.ledger.drop hf, h.committed, h.relaxed_fix hf⟩

theorem returns_commit {s t : Run (BoundedTree K S) K} {j : Nat} (h : Returns (commit j) s () t) :
    ∃ e, s.problem.edges[j]? = some e ∧ t = { s with problem := { s.problem with
      sink := s.problem.sink.push (.edge e.name)
      committed := s.problem.committed ++ [(e.name.u, e.name.v)] } } := by
  simp only [commit, returns_bind, Action.returns_problem] at h
  obtain ⟨_, _, ⟨rfl, rfl⟩, h⟩ := h
  split at h
  · simp at h
  · next e he => exact ⟨e, he, (returns_modify.mp h).symm⟩

theorem Kept.take {s t : Run (BoundedTree K S) K} {j : Nat} {m' : Model K}
    (h : Kept p s.problem s.lp) (hc : Returns (commit j) s () t)
    (hf : Returns (Model.fixColumn j 1) t.lp () m') : Kept p t.problem m' := by
  obtain ⟨e, he, rfl⟩ := returns_commit hc
  obtain ⟨sink, committed, oracle, hq⟩ := h.same
  have hname : (p.edges.map Edge.name)[j]? = some e.name := by
    rw [hq] at he
    rw [List.getElem?_map, he]
    rfl
  refine ⟨⟨s.problem.sink.push (.edge e.name), s.problem.committed ++ [(e.name.u, e.name.v)],
    oracle, ?_⟩, h.ledger.take hname hf, ?_, h.relaxed_fix hf⟩
  · simp only [hq]
  · change s.problem.committed ++ _ = ends (s.problem.sink.push (.edge e.name)).added
    rw [Sink.added_push h.ledger.kept_le, ends_append, ← h.committed]
    rfl

theorem rowVertex_eq_some {i : Nat} (h : p.rowVertex i = some v) :
    p.model.rows[i]? = some (p.degreeRow v) := by
  cases i with
  | zero => cases h
  | succ k =>
    change p.boundedVertices[k]? = some v at h
    simp [model, h]

theorem Kept.rowDegree_eq (h : Kept p q m) {i d : Nat} (hv : p.rowVertex i = some v)
    (hd : m.rowDegree i = .ok d) : d = (p.incident v).countP fun j => m.fixedAt j = none := by
  obtain ⟨r, hr, rfl⟩ := Model.rowDegree_eq_ok.mp hd
  obtain ⟨-, hc⟩ := h.ledger.grown.row (rowVertex_eq_some hv) hr
  rw [hc, degreeRow, cover, List.filter_map, List.length_map, ← List.countP_eq_length_filter]
  refine List.countP_congr fun j hj => ?_
  have hlt : j < m.columns.length := by
    obtain ⟨e, he, -⟩ := Model.mem_positions.mp hj
    rw [h.ledger.grown.length]
    simpa [model] using (List.getElem?_eq_some_iff.mp he).1
  rw [Function.comp_apply, Model.counts_iff]
  simp [hlt]

theorem Kept.countP_incident (h : Kept p q m) (v : Node) :
    (p.incident v).countP (fun j => m.fixedAt j = some 1) =
      (ends q.sink.added).countP fun e => e.1 = v || e.2 = v := by
  rw [h.ledger.countP_ends, Model.positions_map]
  rfl

theorem Kept.kept_le (h : Kept p q m) (v : Node) :
    p.kept m v ≤ (p.incident v).countP (fun j => m.fixedAt j = none) + degree q.committed v := by
  have htaken : (p.incident v).countP (fun j => m.fixedAt j = some 1) ≤ degree q.committed v := by
    rw [h.countP_incident, h.committed, degree_eq]
    exact Nat.le_add_right _ _
  have hsplit : p.kept m v ≤ (p.incident v).countP (fun j => m.fixedAt j = none) +
      (p.incident v).countP fun j => m.fixedAt j = some 1 := by
    rw [countP_add_countP]
    refine le_trans (List.countP_mono_left fun j _ hj => ?_) (Nat.le_add_right _ _)
    cases hf : m.fixedAt j with
    | none => simp
    | some c =>
      rcases h.ledger.integral j c hf with rfl | rfl
      · simp [hf] at hj
      · simp
  omega

theorem Kept.relax {m' : Model K} {i d : Nat} (h : Kept p q m) (hv : p.rowVertex i = some v)
    (hd : m.rowDegree i = .ok d)
    (hle : ((d + degree q.committed v : ℕ) : ℤ) ≤ (p.bound? v).getD 0 + 1)
    (hf : Returns (Model.relaxRow i) m () m') : Kept p q m' := by
  refine ⟨h.same, h.ledger.relax hf, h.committed, ?_⟩
  obtain ⟨r, hr, -, rfl⟩ := Model.returns_relaxRow.mp hf
  intro k r' hr' hk
  by_cases hik : i = k
  · subst hik
    have hkept := h.kept_le v
    rw [← h.rowDegree_eq hv hd] at hkept
    exact ⟨v, hv, le_trans (by exact_mod_cast hkept) hle⟩
  · rw [List.getElem?_set_ne hik] at hr'
    exact h.relaxed k r' hr' hk

theorem returns_relaxable {s t : Run (BoundedTree K S) K} {i : Nat} {b : Bool}
    (h : Returns (relaxable i) s b t) : s = t ∧ (b = true ↔ ∃ v d,
      s.problem.rowVertex i = some v ∧ s.lp.rowDegree i = .ok d ∧
      ((d + degree s.problem.committed v : ℕ) : ℤ) ≤ (s.problem.bound? v).getD 0 + 1) := by
  simp only [relaxable, returns_bind, Action.returns_problem] at h
  obtain ⟨_, _, ⟨rfl, rfl⟩, h⟩ := h
  split at h
  · next hv =>
    obtain ⟨rfl, rfl⟩ := returns_pure.mp h
    exact ⟨rfl, by simp [hv]⟩
  · next v hv =>
    simp only [returns_bind, Action.returns_model, returns_lift, returns_pure] at h
    obtain ⟨_, _, ⟨rfl, rfl⟩, d, _, ⟨hd, rfl⟩, hb, rfl⟩ := h
    refine ⟨rfl, ?_⟩
    rw [← hb, decide_eq_true_iff]
    constructor
    · intro hle
      exact ⟨v, d, hv, hd, hle⟩
    · rintro ⟨w, d', hw, hd', hle⟩
      obtain rfl := Option.some.inj (hv.symm.trans hw)
      obtain rfl := Except.ok.inj (hd.symm.trans hd')
      exact hle

def Settled [Backend K] (p q : BoundedTree K S) (m : Model K) : Prop :=
  Kept p q m ∧ m.Solved ∧ Oracle.Accepts checker p.tolerance p m

theorem search_keeps [Backend K] [Dice S K] (p : BoundedTree K S)
    (hsolver : (Backend.solver : Solver K).Sound) :
    Oracle.Keeps (S := S) home checker tolerance (Kept p) :=
  ⟨rfl, rfl, fun h hs => h.solve hsolver hs, fun h => h.search, fun h _ => h.append rfl,
    fun _ _ => rfl, fun _ _ _ => rfl⟩

theorem policies_keeps [Backend K] [Dice S K] (p : BoundedTree K S) (limit : Nat → Bool)
    (hsolver : (Backend.solver : Solver K).Sound) :
    Engine.Keeps { policies (K := K) (S := S) with limit } RoundRule.commitOne.apply (Kept p)
      (Kept p) (Settled p) := by
  have generate {s t : Run (BoundedTree K S) K} (h : Kept p s.problem s.lp)
      (hs : Returns SolveRule.generating.apply s .optimal t) : Settled p t.problem t.lp := by
    obtain ⟨q, o, hq, hk, hx, ha⟩ := (search_keeps p hsolver).generating h hs
    rw [hq]
    obtain ⟨sink, committed, oracle, rfl⟩ := hk.same
    exact ⟨hk.search, hx, ha⟩
  refine ⟨generate, generate, fun h => h.1, id, RoundRule.commits_commitOne.skip,
    RoundRule.commits_commitOne.fix (Kept p) Kept.drop Kept.take, ?_, ?_⟩
  · intro s t i h
    obtain ⟨rfl, -⟩ := returns_relaxable h
    exact ⟨rfl, rfl⟩
  · rintro s t i m ⟨hk, hs, ha⟩ hr hf
    obtain ⟨rfl, hb⟩ := returns_relaxable hr
    obtain ⟨v, d, hv, hd, hle⟩ := hb.mp rfl
    obtain ⟨sink, committed, oracle, hq⟩ := hk.same
    have hv' : p.rowVertex i = some v := by
      rw [hq] at hv
      exact hv
    have hle' : ((d + degree s.problem.committed v : ℕ) : ℤ) ≤ (p.bound? v).getD 0 + 1 := by
      have hbound : s.problem.bound? v = p.bound? v := by
        rw [hq]
        rfl
      exact hbound ▸ hle
    refine ⟨hk.relax hv' hd hle' hf, ?_⟩
    obtain ⟨r, -, -, rfl⟩ := Model.returns_relaxRow.mp hf
    exact ⟨hs.relax _, ha⟩

end LPRounding.BoundedTree
