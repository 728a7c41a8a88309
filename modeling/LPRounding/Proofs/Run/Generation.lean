import LPRounding.Proofs.Run.Separation
import LPRounding.Proofs.Ends

/-!
Row generation that cannot fail. Where every candidate can be measured, a search comes to an answer
and a point that is not accepted leaves a violation whose row can be added; nothing is then left
that could end a call but a point that is accepted, or calls without end.
-/

namespace LPRounding

set_option linter.unusedSectionVars false

variable {P K S C N : Type} [Field K] [LinearOrder K] [IsStrictOrderedRing K] [FloorRing K]

namespace Search

variable {tol : Tolerance K} {check : C → Except (Fault K) (Violation K C)} {cs : List C}

theorem exists_scan (tol : Tolerance K) (h : ∀ c ∈ cs, ∃ v, check c = .ok v) :
    ∃ s, scan tol check cs = .ok s := by
  induction cs with
  | nil => exact ⟨_, rfl⟩
  | cons c rest ih =>
    obtain ⟨v, hv⟩ := h c List.mem_cons_self
    obtain ⟨s, hs⟩ := ih fun d hd => h d (List.mem_cons_of_mem _ hd)
    by_cases hw : violated tol v = true
    · exact ⟨_, ok_bind_iff.mpr ⟨v, hv, by rw [if_pos hw]; rfl⟩⟩
    · exact ⟨_, ok_bind_iff.mpr ⟨v, hv, by rw [if_neg hw]; exact ok_bind_iff.mpr ⟨s, hs, rfl⟩⟩⟩

theorem exists_worst (tol : Tolerance K) (h : ∀ c ∈ cs, ∃ v, check c = .ok v) :
    ∃ s, worst tol check cs = .ok s := by
  obtain ⟨vs, hvs⟩ := exists_mapM check cs h
  exact ⟨_, ok_bind_iff.mpr ⟨vs, hvs, rfl⟩⟩

end Search

namespace Oracle

variable [Dice S K]

theorem search_ends {tol : Tolerance K} {check : C → Except (Fault K) (Violation K C)}
    {cs : List C} (h : ∀ c ∈ cs, ∃ v, check c = .ok v) (o : Oracle K S C N) :
    Ends (search tol check cs) o (fun _ _ => True) fun _ => False := by
  obtain ⟨s, hs⟩ := Search.exists_scan tol h
  obtain ⟨w, hw⟩ := Search.exists_worst tol h
  simp only [search, ends_bind, ends_get]
  split
  · rw [ends_lift_ok hs]
    trivial
  · rw [ends_lift_ok hw]
    trivial
  · have hrotated : ∀ c ∈ Search.rotate (Dice.below cs.length o.dice).1 cs,
        ∃ v, check c = .ok v := fun c hc => h c (Search.mem_rotate.mp hc)
    obtain ⟨r, hr⟩ := Search.exists_scan tol hrotated
    simp only [ends_bind, ends_get, ends_modify, ends_lift_ok hr]

variable {h : Home P K S C N} {k : Checker P K C N} {tolerance : P → Tolerance K} {s : Run P K}

theorem examine_ends {tol : Tolerance K} {p : P} {m : Model K} {n : N} {cs : List C}
    (hp : k.prepare p m = .ok (n, cs)) (hc : ∀ c ∈ cs, ∃ v, k.check p n c = .ok v)
    (o : Oracle K S C N) :
    Ends (examine k tol p m) o (fun s o' => o'.violation = s.found) fun _ => False := by
  simp only [examine, ends_bind, ends_lift_ok hp, ends_modify]
  split
  · simp only [ends_bind, ends_pure, ends_modify]
  · simp only [ends_bind, ends_pure, ends_modify]
    exact (search_ends hc _).mono (fun _ _ _ _ => trivial) fun _ => id

theorem ends_home {α : Type} {f : P → EStateM (Fault K) (Oracle K S C N) α} {p : P}
    {good : α → P → Prop} {bad : Fault K → Prop} : Ends (h.lift f) p good bad ↔
      Ends (f p) (h.get p) (fun a o => good a (h.set p o)) bad := by
  unfold Ends Home.lift
  cases f p (h.get p) <;> simp

theorem feasible_ends {n : N} {cs : List C} (hp : k.prepare s.problem s.lp = .ok (n, cs))
    (hc : ∀ c ∈ cs, ∃ v, k.check s.problem n c = .ok v) :
    Ends (feasible h k tolerance) s (fun b t => t.iterations = s.iterations ∧
      ∃ o, t.problem = h.set s.problem o ∧ (b = false → ∃ v, o.violation = some v))
      fun _ => False := by
  simp only [feasible, ends_bind, Action.ends_model, Action.ends_onProblem, ends_home, ends_pure]
  refine (examine_ends hp hc _).mono (fun found o _ ho => ⟨trivial, o, rfl, fun hb => ?_⟩)
    fun _ => id
  rw [ho]
  exact Option.isSome_iff_exists.mp (Option.isNone_eq_false_iff.mp hb)

theorem separate_ends {v : Violation K C} (hv : (h.get s.problem).violation = some v) :
    Ends (separate h k) s (fun _ t => t.iterations = s.iterations) fun _ => False := by
  simp only [separate, take, ends_bind, Action.ends_problem, Action.ends_onProblem, ends_home,
    ends_get, hv, ends_set, ends_pure, Action.ends_onModel, Model.appendRow, Action.ends_note]

def Measurable (k : Checker P K C N) (kept : P → Model K → Prop) : Prop :=
  ∀ {q m}, kept q m → m.Solved → ∃ n cs, k.prepare q m = .ok (n, cs) ∧
    ∀ c ∈ cs, ∃ v, k.check q n c = .ok v

/-- A model of which `kept` holds has an optimal point after a solve, where all candidates can be
measured. -/
structure Total [Backend K] (k : Checker P K C N) (kept : P → Model K → Prop) : Prop where
  solve : ∀ {q m}, kept q m → ∃ m', Returns (Model.solve Backend.solver) m .optimal m'
  prepare : Measurable k kept

variable [Backend K] [Roundable P K] {kept : P → Model K → Prop}

theorem solveModel_ends {st : Status} {m : Model K}
    (hm : Returns (Model.solve Backend.solver) s.lp st m) :
    Ends Action.solveModel s (fun st' t => st' = st ∧ t.iterations = s.iterations)
      fun _ => False := by
  simp only [Action.solveModel, ends_bind, Action.ends_onModel, Action.ends_model]
  refine hm.ends.mpr ?_
  split
  · split <;> simp
  · simp

theorem Keeps.solveModel_ends (w : Keeps h k tolerance kept) (c : Total k kept)
    (hk : kept s.problem s.lp) :
    Ends Action.solveModel s (fun st t => st = .optimal ∧ t.iterations = s.iterations ∧
      kept t.problem t.lp ∧ t.lp.Solved) fun _ => False := by
  obtain ⟨m, hm⟩ := c.solve hk
  refine (Oracle.solveModel_ends hm).mono (fun st t ht h => ?_) fun _ => id
  obtain ⟨rfl, hi⟩ := h
  exact ⟨rfl, hi, w.solveModel hk ht⟩

theorem Keeps.generateRows_ends (w : Keeps h k tolerance kept) (c : Total k kept) {passes : Nat}
    (hk : kept s.problem s.lp) (hx : s.lp.Solved) :
    Ends (LPRounding.generateRows passes .optimal) s
      (fun st t => st = .optimal ∧ t.iterations = s.iterations) (· = .unfinished) := by
  induction passes generalizing s with
  | zero => exact rfl
  | succ passes ih =>
    obtain ⟨n, cs, hp, hc⟩ := c.prepare hk hx
    rw [LPRounding.generateRows, ends_bind, w.feasible]
    refine (feasible_ends hp hc).mono (fun b t ht h => ?_) fun _ => False.elim
    obtain ⟨hi, o, ho, hv⟩ := h
    cases b with
    | true => exact ⟨rfl, hi⟩
    | false =>
      obtain ⟨v, hv⟩ := hv rfl
      have hv : (h.get t.problem).violation = some v := by rw [ho, w.get_set, hv]
      simp only [Bool.false_eq_true, if_false, ends_bind, w.separate]
      refine (separate_ends hv).mono (fun i u hu hiu => ?_) fun _ => False.elim
      have hku := w.extend hk (w.feasible ▸ ht) (w.separate ▸ hu)
      refine (w.solveModel_ends c hku).mono (fun st x _ h => ?_) fun _ => False.elim
      obtain ⟨rfl, hix, hkx, hsx⟩ := h
      exact (ih hkx hsx).mono (fun st y _ h => ⟨h.1, by omega⟩) fun _ => id

/-- A call of row generation ends at an optimal point, unless it does not end. -/
theorem Keeps.generating_ends (w : Keeps h k tolerance kept) (c : Total k kept)
    (hk : kept s.problem s.lp) :
    Ends SolveRule.generating.apply s (fun st t => st = .optimal ∧ t.iterations = s.iterations)
      (· = .unfinished) := by
  rw [SolveRule.apply, ends_bind]
  refine (w.solveModel_ends c hk).mono (fun st t _ h => ?_) fun _ => False.elim
  obtain ⟨rfl, hi, hkt, hx⟩ := h
  exact (w.generateRows_ends c hkt hx).mono (fun st u _ h => ⟨h.1, h.2.trans hi⟩) fun _ => id

end Oracle

end LPRounding
