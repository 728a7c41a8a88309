import LPRounding.Proofs.Flow.Maximum
import LPRounding.Proofs.LP.Honest
import LPRounding.Proofs.Run.Generation
import LPRounding.Proofs.Run.Progress
import LPRounding.Proofs.Run.Refinement

/-!
The verdict on a point. Where every candidate can be measured, a check of the point comes to an end
and accepts it just when no candidate is violated; otherwise it records a violation of one of them,
and the row of that violation is the one that is added next.
-/

namespace LPRounding

set_option linter.unusedSectionVars false

variable {P K S C N : Type} [Field K] [LinearOrder K] [IsStrictOrderedRing K] [FloorRing K]

theorem Model.exists_values {α : Type} {xs : List α} {m : Model K} {x : Solution K}
    (hx : m.solution = some x) (hl : x.values.length = m.columns.length)
    (hxs : xs.length = m.columns.length) :
    ∀ e ∈ xs.zipIdx, m.columnValue e.2 = .ok (x.values.getD e.2 0) := by
  intro e he
  refine Model.columnValue_eq hx hl ?_
  have hj := List.snd_lt_of_mem_zipIdx he
  omega

theorem Model.rowValue_append {m : Model K} {x : Solution K} (hx : m.solution = some x) {r : Row K}
    (hr : ∀ e ∈ r.coefs, e.1 < x.values.length) :
    ({ m with rows := m.rows ++ [r] } : Model K).rowValue m.rows.length =
      .ok (weigh r.coefs x.values) := by
  have hread : ∀ e ∈ r.coefs, (x.value e.1 : Except (Fault K) K) = .ok (x.values.getD e.1 0) := by
    intro e he
    simp [Solution.value, hr e he]
  have hterms : r.coefs.mapM (fun e => return e.2 * (← x.value e.1)) =
      (.ok (r.coefs.map fun e => e.2 * x.values.getD e.1 0) : Except (Fault K) (List K)) := by
    refine mapM_ok_iff.mpr (List.forall₂_map_right_iff.mpr (List.forall₂_same.mpr fun e he => ?_))
    rw [hread e he]
    rfl
  simp only [rowValue, lastSolution, row, hx, List.getElem?_concat_length]
  exact ok_bind_iff.mpr ⟨x, rfl, ok_bind_iff.mpr ⟨r, rfl, ok_bind_iff.mpr ⟨_, hterms, rfl⟩⟩⟩

/-- Coefficient one on the columns that pass a test, each of them once. -/
def Row.Sums (r : Row K) (test : Nat → Prop) : Prop :=
  (r.coefs.map Prod.fst).Nodup ∧ ∀ j c, (j, c) ∈ r.coefs ↔ c = 1 ∧ test j

theorem sums_cover {α : Type} (kind : BoundKind) (lo hi : K) (test : α → Bool) (xs : List α) :
    (cover kind lo hi (Model.positions test xs)).Sums fun j =>
      ∃ a, xs[j]? = some a ∧ test a = true := by
  refine ⟨?_, fun j c => ?_⟩
  · simpa [cover, Function.comp_def] using Model.nodup_positions test xs
  · simp only [cover, List.mem_map, Prod.mk.injEq, Model.mem_positions]
    constructor
    · rintro ⟨i, hi, rfl, rfl⟩
      exact ⟨rfl, hi⟩
    · rintro ⟨rfl, hj⟩
      exact ⟨j, hj, rfl, rfl⟩

namespace Oracle

variable [Dice S K] {h : Home P K S C N} {k : Checker P K C N} {tolerance : P → Tolerance K}

/-- After `s` was rejected in `t`, the violation is recorded: it was measured of a candidate, and
adding its row is all that is left to do. -/
structure Rejects (h : Home P K S C N) (k : Checker P K C N) (tolerance : P → Tolerance K) (n : N)
    (cs : List C) (s t : Run P K) (v : Violation K C) : Prop where
  recorded : (h.get t.problem).violation = some v
  measured : Search.Measured (k.check s.problem n) cs v
  large : (tolerance s.problem).epsilon < v.magnitude
  added : ∃ u, Returns (separate h k) t s.lp.rows.length u ∧
    u.lp = { s.lp with rows := s.lp.rows ++ [k.row s.problem v] }

theorem index_of_separate {s t : Run P K} {i : Nat} (hr : Returns (separate h k) s i t) :
    i = s.lp.rows.length := by
  simp only [separate, returns_bind, Action.returns_problem, Action.returns_onProblem,
    Action.returns_onModel, Action.returns_note, Model.returns_appendRow, returns_pure] at hr
  obtain ⟨_, _, ⟨rfl, rfl⟩, v, _, ⟨q, -, rfl⟩, _, _, ⟨m, ⟨rfl, -⟩, rfl⟩, _, _, -, rfl, -⟩ := hr
  rfl

variable (h k tolerance) in
theorem exists_verdict (hget : ∀ q o, h.get (h.set q o) = o)
    (hrow : ∀ q o v, k.row (h.set q o) v = k.row q v) {s : Run P K} {n : N} {cs : List C}
    (hp : k.prepare s.problem s.lp = .ok (n, cs))
    (hc : ∀ c ∈ cs, ∃ v, k.check s.problem n c = .ok v) :
    ∃ b t, Returns (feasible h k tolerance) s b t ∧
      (b = true ↔ Search.Clear (tolerance s.problem) (k.check s.problem n) cs) ∧
      (b = false → ∃ v, Rejects h k tolerance n cs s t v) := by
  have hsame {n' : N} {cs' : List C} (hp' : k.prepare s.problem s.lp = .ok (n', cs')) :
      n' = n ∧ cs' = cs := Prod.mk.inj (Except.ok.inj (hp'.symm.trans hp))
  have hends : Ends (feasible h k tolerance) s _ _ := feasible_ends hp hc
  obtain ⟨b, t, ht, -⟩ := hends.exists_returns
  have hreject (hb : b = false) : ∃ v, Rejects h k tolerance n cs s t v := by
    subst hb
    obtain ⟨hlp, o, v, ho, hv, ⟨n', cs', hp', hm⟩, hlarge⟩ := exists_reported ht
    obtain ⟨rfl, rfl⟩ := hsame hp'
    have hrec : (h.get t.problem).violation = some v := by rw [ho, hget, hv]
    obtain ⟨i, u, hu, -⟩ := (separate_ends (k := k) hrec).exists_returns
    obtain ⟨-, w, hw, hadded⟩ := returns_separate hu
    obtain rfl := Option.some.inj (hrec.symm.trans hw)
    obtain rfl := index_of_separate hu
    exact ⟨v, hrec, hm, hlarge, u, hlp ▸ hu, by rw [hadded, hlp, ho, hrow]⟩
  refine ⟨b, t, ht, ⟨fun hb => ?_, fun hclear => ?_⟩, hreject⟩
  · obtain ⟨n', cs', hp', hclear⟩ := (returns_feasible ht).2.2 hb
    obtain ⟨rfl, rfl⟩ := hsame hp'
    exact hclear
  · by_contra hb
    obtain ⟨v, hv⟩ := hreject (by simpa using hb)
    obtain ⟨c, hcs, hcheck⟩ := hv.measured
    obtain ⟨w, hw, hle⟩ := hclear c hcs
    obtain rfl := Except.ok.inj (hcheck.symm.trans hw)
    exact not_lt.mpr hle hv.large

end Oracle

@[reducible] noncomputable def flowBackend : Backend ℚ where
  solver := .offering []
  flow := .largest Augment.finder
  passes := 1

end LPRounding
