import LPRounding.Proofs.Run.Refinement
import Mathlib.Data.Set.Card

/-!
Rounds of row generation that make progress. Where every row that is added is violated at the point
that was rejected, no row is added twice, as the next point keeps to it; a family with finitely many
rows then allows no more rounds than it has rows.
-/

namespace LPRounding

set_option linter.unusedSectionVars false

variable {P K S C N : Type} [Field K] [LinearOrder K] [IsStrictOrderedRing K] [FloorRing K]

section Rounds

variable [Backend K] [Roundable P K]

/-- The point is not accepted, a row is added, and the model is solved again. -/
def Round (s t : Run P K) : Prop :=
  ∃ u v i, Returns Roundable.feasible s false u ∧ Returns Roundable.separate u i v ∧
    Returns Action.solveModel v .optimal t

inductive Rounds : Nat → Run P K → Run P K → Prop where
  | nil (s : Run P K) : Rounds 0 s s
  | cons {n : Nat} {s t u : Run P K} : Round s t → Rounds n t u → Rounds (n + 1) s u

theorem Rounds.generateRows_eq {n : Nat} {s t : Run P K} (h : Rounds n s t) (passes : Nat) :
    generateRows (n + passes) .optimal s = generateRows passes .optimal t := by
  induction h with
  | nil => rw [Nat.zero_add]
  | @cons n s t u hround _ ih =>
    obtain ⟨v, w, i, hf, hs, hsolve⟩ := hround
    rw [← ih, Nat.add_right_comm]
    calc generateRows (n + passes + 1) .optimal s
        = (do
            let _ ← Roundable.separate
            generateRows (n + passes) (← Action.solveModel)) v := hf.bind_apply _
      _ = (do generateRows (n + passes) (← Action.solveModel)) w := hs.bind_apply _
      _ = generateRows (n + passes) .optimal t := hsolve.bind_apply _

theorem unfinished_of_rounds {s : Run P K} (h : ∀ n, ∃ t, Rounds n s t) (passes : Nat) :
    ∃ t, generateRows passes .optimal s = .error .unfinished t := by
  obtain ⟨t, ht⟩ := h passes
  exact ⟨t, ht.generateRows_eq 0⟩

end Rounds

namespace Oracle

variable [Dice S K] [Backend K] [Roundable P K] {h : Home P K S C N} {k : Checker P K C N}
  {tolerance : P → Tolerance K} {family : P → Set (Row K)} {sane : P → Prop} {s t : Run P K}

/-- Each row that is generated is violated at the point that was rejected. -/
structure Cuts (h : Home P K S C N) (k : Checker P K C N) (tolerance : P → Tolerance K)
    (family : P → Set (Row K)) (sane : P → Prop) : Prop
    extends Generates h k tolerance family sane where
  kept : ∀ q v, (k.row q v).relaxed = false
  violated : ∀ {q m x v}, sane q → m.solution = some x → Reports k (tolerance q) q m v →
    ¬ (k.row q v).bound.Admits (weigh (k.row q v).coefs x.values)

theorem Cuts.extend (w : Cuts h k tolerance family sane) (hsane : sane s.problem)
    (hx : s.lp.Solved) {u v : Run P K} {i : Nat} (hf : Returns Roundable.feasible s false u)
    (hs : Returns Roundable.separate u i v) :
    (∃ o, v.problem = h.set s.problem o) ∧ ∃ r, v.lp = { s.lp with rows := s.lp.rows ++ [r] } ∧
      r.relaxed = false ∧ r ∈ family s.problem ∧ r ∉ s.lp.keptRows := by
  rw [w.feasible] at hf
  rw [w.separate] at hs
  obtain ⟨viol, hrep, ho, hm⟩ := exists_added w.get_set w.set_set w.row_set hf hs
  obtain ⟨x, hx, hadm⟩ := hx
  refine ⟨ho, _, hm, w.kept _ _, w.member hsane hrep, fun hmem => ?_⟩
  obtain ⟨hmem, hkept⟩ := Model.mem_keptRows.mp hmem
  exact w.violated hsane hx hrep (hadm.rows _ hmem hkept)

theorem Cuts.round (w : Cuts h k tolerance family sane)
    (hsolver : (Backend.solver : Solver K).Sound) (hsane : sane s.problem) (hx : s.lp.Solved)
    (hr : Round s t) :
    ∃ r, t.lp.rows = s.lp.rows ++ [r] ∧ r.relaxed = false ∧ r ∈ family s.problem ∧
      r ∉ s.lp.keptRows ∧ t.lp.Solved ∧ ∃ o, t.problem = h.set s.problem o := by
  obtain ⟨u, v, i, hf, hs, hsolve⟩ := hr
  obtain ⟨⟨o, ho⟩, r, hm, hopen, hmem, hnew⟩ := w.extend hsane hx hf hs
  obtain ⟨hq, hlp⟩ := Action.returns_solveModel hsolve
  have hrows : t.lp.rows = v.lp.rows := by
    obtain ⟨sol, heq, -⟩ := Model.returns_solve hlp
    rw [heq]
  exact ⟨r, by rw [hrows, hm], hopen, hmem, hnew, Model.solved_of_solve hsolver hlp, o,
    hq.trans ho⟩

/-- The rows that rounds add are all different, and none was there before. -/
theorem Cuts.rounds (w : Cuts h k tolerance family sane)
    (hsolver : (Backend.solver : Solver K).Sound) {n : Nat} (hsane : sane s.problem)
    (hx : s.lp.Solved) (hr : Rounds n s t) : ∃ rows, t.lp.rows = s.lp.rows ++ rows ∧
      rows.length = n ∧ rows.Nodup ∧ ∀ r ∈ rows, r ∈ family s.problem ∧ r ∉ s.lp.keptRows := by
  induction hr with
  | nil s => exact ⟨[], by simp, rfl, List.nodup_nil, by simp⟩
  | @cons n s t u hround _ ih =>
    obtain ⟨r, hrow, hopen, hmem, hnew, hxt, o, ho⟩ := w.round hsolver hsane hx hround
    obtain ⟨rows, hrows, hlen, hnodup, hall⟩ := ih (ho ▸ (w.sane_set _ _).mpr hsane) hxt
    -- what is new after the round is neither its row nor one from before
    have hkept {r' : Row K} (hr' : r' ∉ t.lp.keptRows) : r' ≠ r ∧ r' ∉ s.lp.keptRows := by
      simp only [Model.mem_keptRows, hrow, List.mem_append, List.mem_singleton] at hr' ⊢
      constructor
      · rintro rfl
        exact hr' ⟨.inr rfl, hopen⟩
      · exact fun h => hr' ⟨.inl h.1, h.2⟩
    refine ⟨r :: rows, by rw [hrows, hrow]; simp, by rw [List.length_cons, hlen], ?_, ?_⟩
    · exact List.nodup_cons.mpr ⟨fun hr => (hkept (hall r hr).2).1 rfl, hnodup⟩
    · intro r' hr'
      rcases List.mem_cons.mp hr' with rfl | hr'
      · exact ⟨hmem, hnew⟩
      · obtain ⟨hfam, hnew'⟩ := hall r' hr'
        exact ⟨w.family_set _ o ▸ ho ▸ hfam, (hkept hnew').2⟩

theorem Cuts.rounds_le (w : Cuts h k tolerance family sane)
    (hsolver : (Backend.solver : Solver K).Sound) {n : Nat} (hsane : sane s.problem)
    (hx : s.lp.Solved) (hfin : (family s.problem).Finite) (hr : Rounds n s t) :
    n ≤ (family s.problem).ncard := by
  classical
  obtain ⟨rows, -, rfl, hnodup, hall⟩ := w.rounds hsolver hsane hx hr
  rw [← List.toFinset_card_of_nodup hnodup, ← Set.ncard_coe_finset]
  refine Set.ncard_le_ncard (fun r hr => ?_) hfin
  exact (hall r (by simpa using hr)).1

end Oracle

end LPRounding
