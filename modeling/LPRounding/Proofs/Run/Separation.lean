import LPRounding.Proofs.Run.Rules
import LPRounding.Separation.Oracle

/-!
Row generation. Whichever strategy searches, a point is accepted only when no candidate is
violated there, and a generated row, of a violation that was measured there, is the only change that
a rejected point makes to the model.
-/

namespace LPRounding

set_option linter.unusedSectionVars false

variable {P K S C N : Type} [Field K] [LinearOrder K] [IsStrictOrderedRing K] [FloorRing K]

namespace Search

variable {tol : Tolerance K} {check : C → Except (Fault K) (Violation K C)} {cs : List C}
  {s : Search K C}

def Clear (tol : Tolerance K) (check : C → Except (Fault K) (Violation K C)) (cs : List C) :
    Prop :=
  ∀ c ∈ cs, ∃ v, check c = .ok v ∧ v.magnitude ≤ tol.epsilon

theorem not_violated_iff {v : Violation K C} :
    violated tol v = false ↔ v.magnitude ≤ tol.epsilon := by
  rw [violated, Bool.eq_false_iff, Ne, Tolerance.above_iff, zero_add, not_lt]

theorem clear_of_scan (h : scan tol check cs = .ok s) (hn : s.found = none) :
    Clear tol check cs := by
  induction cs generalizing s with
  | nil => simp [Clear]
  | cons c rest ih =>
    simp only [scan, ok_bind_iff] at h
    obtain ⟨v, hv, h⟩ := h
    split at h
    · obtain rfl := Except.ok.inj h
      cases hn
    · next hc =>
      obtain ⟨s', hs', h⟩ := ok_bind_iff.mp h
      obtain rfl := Except.ok.inj h
      intro d hd
      rcases List.mem_cons.mp hd with rfl | hd
      · exact ⟨v, hv, not_violated_iff.mp (by simpa using hc)⟩
      · exact ih hs' hn d hd

theorem mem_rotate {start : Nat} {c : C} : c ∈ rotate start cs ↔ c ∈ cs := by
  simp only [rotate]
  rw [List.mem_append, or_comm, ← List.mem_append, List.take_append_drop]

theorem foldl_worse (vs : List (Violation K C)) (b : Violation K C) :
    ∃ w, vs.foldl worse (some b) = some w ∧ b.magnitude ≤ w.magnitude ∧
      ∀ v ∈ vs, v.magnitude ≤ w.magnitude := by
  induction vs generalizing b with
  | nil => exact ⟨b, rfl, le_rfl, by simp⟩
  | cons v rest ih =>
    rw [List.foldl_cons, worse]
    by_cases hlt : b.magnitude < v.magnitude
    · obtain ⟨w, hw, hb, hr⟩ := ih v
      refine ⟨w, by rw [if_pos hlt, hw], hlt.le.trans hb, ?_⟩
      simpa using ⟨hb, hr⟩
    · obtain ⟨w, hw, hb, hr⟩ := ih b
      refine ⟨w, by rw [if_neg hlt, hw], hb, ?_⟩
      simpa using ⟨(not_lt.mp hlt).trans hb, hr⟩

theorem clear_of_mapM {vs : List (Violation K C)} (h : cs.mapM check = .ok vs)
    (hle : ∀ v ∈ vs, v.magnitude ≤ tol.epsilon) : Clear tol check cs := by
  have hall := mapM_ok_iff.mp h
  clear h
  induction hall with
  | nil => simp [Clear]
  | @cons c v _ _ hc _ ih =>
    intro d hd
    rcases List.mem_cons.mp hd with rfl | hd
    · exact ⟨v, hc, hle v List.mem_cons_self⟩
    · exact ih (fun w hw => hle w (List.mem_cons_of_mem _ hw)) d hd

theorem clear_of_worst (h : worst tol check cs = .ok s) (hn : s.found = none) :
    Clear tol check cs := by
  obtain ⟨vs, hvs, h⟩ := ok_bind_iff.mp h
  obtain rfl := Except.ok.inj h
  refine clear_of_mapM hvs ?_
  cases vs with
  | nil => simp
  | cons b rest =>
    obtain ⟨w, hw, hb, hr⟩ := foldl_worse rest b
    have hfold : (b :: rest).foldl worse none = some w := hw
    have hwle : w.magnitude ≤ tol.epsilon := by
      rw [hfold] at hn
      exact not_violated_iff.mp (by simpa [Option.filter] using hn)
    intro v hv
    rcases List.mem_cons.mp hv with rfl | hv
    · exact hb.trans hwle
    · exact (hr v hv).trans hwle

/-- Some candidate was measured to have the violation. -/
def Measured (check : C → Except (Fault K) (Violation K C)) (cs : List C) (v : Violation K C) :
    Prop :=
  ∃ c ∈ cs, check c = .ok v

variable {v : Violation K C}

theorem measured_of_scan (h : scan tol check cs = .ok s) (hv : s.found = some v) :
    Measured check cs v := by
  induction cs generalizing s with
  | nil =>
    obtain rfl := Except.ok.inj h
    cases hv
  | cons c rest ih =>
    simp only [scan, ok_bind_iff] at h
    obtain ⟨w, hw, h⟩ := h
    split at h
    · obtain rfl := Except.ok.inj h
      exact ⟨c, List.mem_cons_self, hw.trans (congrArg _ (Option.some.inj hv))⟩
    · obtain ⟨s', hs', h⟩ := ok_bind_iff.mp h
      obtain rfl := Except.ok.inj h
      obtain ⟨d, hd, hcheck⟩ := ih hs' hv
      exact ⟨d, List.mem_cons_of_mem _ hd, hcheck⟩

theorem foldl_worse_mem (vs : List (Violation K C)) {best : Option (Violation K C)}
    (h : vs.foldl worse best = some v) : best = some v ∨ v ∈ vs := by
  induction vs generalizing best with
  | nil => exact .inl h
  | cons w rest ih =>
    rcases ih h with hw | hv
    · unfold worse at hw
      split at hw
      · exact .inr (Option.some.inj hw ▸ List.mem_cons_self)
      · split at hw
        · exact .inr (Option.some.inj hw ▸ List.mem_cons_self)
        · exact .inl hw
    · exact .inr (List.mem_cons_of_mem _ hv)

theorem measured_of_worst (h : worst tol check cs = .ok s) (hv : s.found = some v) :
    Measured check cs v := by
  obtain ⟨vs, hvs, h⟩ := ok_bind_iff.mp h
  obtain rfl := Except.ok.inj h
  rcases foldl_worse_mem vs (Option.filter_eq_some_iff.mp hv).1 with h | h
  · cases h
  · exact exists_of_mapM hvs h

end Search

namespace Oracle

variable [Dice S K]

theorem clear_of_search {tol : Tolerance K} {check : C → Except (Fault K) (Violation K C)}
    {cs : List C} {o o' : Oracle K S C N} {s : Search K C}
    (h : Returns (search tol check cs) o s o') (hn : s.found = none) :
    Search.Clear tol check cs := by
  simp only [search, returns_bind, returns_get] at h
  obtain ⟨_, _, ⟨rfl, rfl⟩, h⟩ := h
  split at h
  · exact Search.clear_of_scan (returns_lift.mp h).1 hn
  · exact Search.clear_of_worst (returns_lift.mp h).1 hn
  · simp only [returns_bind, returns_get, returns_modify, returns_lift] at h
    obtain ⟨_, _, ⟨rfl, rfl⟩, _, _, -, h, -⟩ := h
    intro c hc
    exact Search.clear_of_scan h hn c (Search.mem_rotate.mpr hc)

theorem measured_of_search {tol : Tolerance K} {check : C → Except (Fault K) (Violation K C)}
    {cs : List C} {o o' : Oracle K S C N} {s : Search K C} {v : Violation K C}
    (h : Returns (search tol check cs) o s o') (hv : s.found = some v) :
    Search.Measured check cs v := by
  simp only [search, returns_bind, returns_get] at h
  obtain ⟨_, _, ⟨rfl, rfl⟩, h⟩ := h
  split at h
  · exact Search.measured_of_scan (returns_lift.mp h).1 hv
  · exact Search.measured_of_worst (returns_lift.mp h).1 hv
  · simp only [returns_bind, returns_get, returns_modify, returns_lift] at h
    obtain ⟨_, _, ⟨rfl, rfl⟩, _, _, -, h, -⟩ := h
    obtain ⟨c, hc, hcheck⟩ := Search.measured_of_scan h hv
    exact ⟨c, Search.mem_rotate.mp hc, hcheck⟩

/-- The checker finds nothing at the point of a model. -/
def Accepts (k : Checker P K C N) (tol : Tolerance K) (p : P) (m : Model K) : Prop :=
  ∃ n cs, k.prepare p m = .ok (n, cs) ∧ Search.Clear tol (k.check p n) cs

theorem accepts_of_examine {k : Checker P K C N} {tol : Tolerance K} {p : P} {m : Model K}
    {o o' : Oracle K S C N} {s : Search K C} (h : Returns (examine k tol p m) o s o')
    (hn : s.found = none) : Accepts k tol p m := by
  simp only [examine, returns_bind, returns_lift, returns_modify] at h
  obtain ⟨⟨n, cs⟩, _, ⟨hp, rfl⟩, _, _, -, h⟩ := h
  refine ⟨n, cs, hp, ?_⟩
  split at h
  · next he =>
    obtain rfl : cs = [] := List.isEmpty_iff.mp he
    simp [Search.Clear]
  · simp only [returns_bind, returns_pure] at h
    obtain ⟨s', _, hs, _, _, -, rfl, -⟩ := h
    exact clear_of_search hs hn

/-- The checker finds the violation at the point of a model. -/
def Finds (k : Checker P K C N) (p : P) (m : Model K) (v : Violation K C) : Prop :=
  ∃ n cs, k.prepare p m = .ok (n, cs) ∧ Search.Measured (k.check p n) cs v

theorem finds_of_examine {k : Checker P K C N} {tol : Tolerance K} {p : P} {m : Model K}
    {o o' : Oracle K S C N} {s : Search K C} (h : Returns (examine k tol p m) o s o') :
    o'.violation = s.found ∧ ∀ v, s.found = some v → Finds k p m v := by
  simp only [examine, returns_bind, returns_lift, returns_modify] at h
  obtain ⟨⟨n, cs⟩, _, ⟨hp, rfl⟩, _, _, -, h⟩ := h
  split at h
  · simp only [returns_bind, returns_pure, returns_modify] at h
    obtain ⟨_, _, ⟨rfl, -⟩, _, _, rfl, rfl, rfl⟩ := h
    exact ⟨rfl, fun v hv => by cases hv⟩
  · simp only [returns_bind, returns_pure, returns_modify] at h
    obtain ⟨s', _, hs, _, _, rfl, rfl, rfl⟩ := h
    exact ⟨rfl, fun v hv => ⟨n, cs, hp, measured_of_search hs hv⟩⟩

theorem returns_take {o o' : Oracle K S C N} {v : Violation K C} (h : Returns take o v o') :
    o.violation = some v := by
  simp only [take, returns_bind, returns_get] at h
  obtain ⟨_, _, ⟨rfl, rfl⟩, h⟩ := h
  split at h
  · simp at h
  · next hw =>
    simp only [returns_bind, returns_set, returns_pure] at h
    obtain ⟨_, _, -, rfl, -⟩ := h
    exact hw

theorem returns_home {α : Type} {h : Home P K S C N}
    {f : P → EStateM (Fault K) (Oracle K S C N) α} {p q : P} {a : α}
    (hr : Returns (h.lift f) p a q) : ∃ o, Returns (f p) (h.get p) a o ∧ q = h.set p o := by
  unfold Returns Home.lift at hr
  split at hr
  · next o ho =>
    obtain ⟨rfl, rfl⟩ := EStateM.Result.ok.inj hr
    exact ⟨o, ho, rfl⟩
  · cases hr

section Actions

variable {h : Home P K S C N} {k : Checker P K C N} {s t : Run P K}

theorem returns_feasible {tolerance : P → Tolerance K} {b : Bool}
    (hr : Returns (feasible h k tolerance) s b t) :
    t.lp = s.lp ∧
      (∃ o, t.problem = h.set s.problem o ∧ ∀ v, o.violation = some v → Finds k s.problem s.lp v) ∧
      (b = true → Accepts k (tolerance s.problem) s.problem s.lp) := by
  simp only [feasible, returns_bind, Action.returns_model, Action.returns_onProblem,
    returns_pure] at hr
  obtain ⟨_, _, ⟨rfl, rfl⟩, found, _, ⟨q, hq, rfl⟩, rfl, rfl⟩ := hr
  obtain ⟨o, ho, rfl⟩ := returns_home hq
  obtain ⟨hfound, hv⟩ := finds_of_examine ho
  exact ⟨rfl, ⟨o, rfl, hfound ▸ hv⟩, fun hb => accepts_of_examine ho (by simpa using hb)⟩

theorem returns_separate {i : Nat} (hr : Returns (separate h k) s i t) :
    (∃ o, t.problem = h.set s.problem o) ∧ ∃ v, (h.get s.problem).violation = some v ∧
      t.lp = { s.lp with rows := s.lp.rows ++ [k.row s.problem v] } := by
  simp only [separate, returns_bind, Action.returns_problem, Action.returns_onProblem,
    Action.returns_onModel, Action.returns_note, Model.returns_appendRow, returns_pure] at hr
  obtain ⟨_, _, ⟨rfl, rfl⟩, v, _, ⟨q, hq, rfl⟩, _, _, ⟨m, ⟨-, rfl⟩, rfl⟩, _, _, rfl, -, rfl⟩ := hr
  obtain ⟨o, ho, rfl⟩ := returns_home hq
  exact ⟨⟨o, rfl⟩, v, returns_take ho, rfl⟩

end Actions

/-- Single steps of row generation by an oracle: the problem's own tests are the oracle's, and
solving, searching and adding the row of a violation that was found keep what `kept` says. -/
structure Keeps [Backend K] [Roundable P K] (h : Home P K S C N) (k : Checker P K C N)
    (tolerance : P → Tolerance K) (kept : P → Model K → Prop) : Prop where
  feasible : (Roundable.feasible : Action P K Bool) = Oracle.feasible h k tolerance
  separate : (Roundable.separate : Action P K Nat) = Oracle.separate h k
  solve : ∀ {q m m'}, kept q m → Returns (Model.solve Backend.solver) m .optimal m' →
    kept q m' ∧ m'.Solved
  search : ∀ {q m o}, kept q m → kept (h.set q o) m
  append : ∀ {q m v}, kept q m → Finds k q m v → kept q { m with rows := m.rows ++ [k.row q v] }
  get_set : ∀ q o, h.get (h.set q o) = o
  row_set : ∀ q o v, k.row (h.set q o) v = k.row q v

section Generate

variable [Backend K] [Roundable P K] {h : Home P K S C N} {k : Checker P K C N}
  {tolerance : P → Tolerance K} {kept : P → Model K → Prop} {s t : Run P K}

theorem Keeps.solveModel (w : Keeps h k tolerance kept) (hk : kept s.problem s.lp)
    (hs : Returns Action.solveModel s .optimal t) : kept t.problem t.lp ∧ t.lp.Solved := by
  obtain ⟨hq, hm⟩ := Action.returns_solveModel hs
  rw [hq]
  exact w.solve hk hm

theorem Keeps.extend (w : Keeps h k tolerance kept) (hk : kept s.problem s.lp) {i : Nat}
    (hf : Returns Roundable.feasible s false t) {u : Run P K}
    (hs : Returns Roundable.separate t i u) : kept u.problem u.lp := by
  rw [w.feasible] at hf
  rw [w.separate] at hs
  obtain ⟨hm, ⟨o, ho, hfinds⟩, -⟩ := Oracle.returns_feasible hf
  obtain ⟨⟨o', ho'⟩, v, hv, hm'⟩ := Oracle.returns_separate hs
  rw [ho, w.get_set] at hv
  rw [ho', hm', ho, hm, w.row_set]
  exact w.search (w.search (w.append hk (hfinds v hv)))

/-- Rows are generated until the oracle accepts the point. -/
theorem Keeps.generating (w : Keeps h k tolerance kept) (hk : kept s.problem s.lp)
    (hr : Returns SolveRule.generating.apply s .optimal t) :
    ∃ q o, t.problem = h.set q o ∧ kept q t.lp ∧ t.lp.Solved ∧
      Accepts k (tolerance q) q t.lp := by
  have hsolve {u v : Run P K} {st : Status} (hk : kept u.problem u.lp)
      (hs : Returns Action.solveModel u st v) (hst : st = .optimal) :
      kept v.problem v.lp ∧ v.lp.Solved := w.solveModel hk (hst ▸ hs)
  obtain ⟨u, hu, hend⟩ := exists_of_generating
    (motive := fun st u => st = .optimal → kept u.problem u.lp ∧ u.lp.Solved) (hsolve hk)
    (fun ht hf hs => hsolve (w.extend (ht rfl).1 hf hs)) hr
  rcases hend with ⟨-, hb⟩ | ⟨hn, -⟩
  · obtain ⟨hku, hxu⟩ := hu rfl
    obtain ⟨hm, ⟨o, ho, -⟩, ha⟩ := Oracle.returns_feasible (w.feasible ▸ hb)
    exact ⟨u.problem, o, ho, hm ▸ hku, hm ▸ hxu, hm ▸ ha rfl⟩
  · exact absurd rfl hn

theorem Keeps.generating_optimal (w : Keeps h k tolerance kept)
    (hopt : ∀ {q m m' st}, kept q m → Returns (Model.solve Backend.solver) m st m' → st = .optimal)
    (hk : kept s.problem s.lp) {st : Status} (hr : Returns SolveRule.generating.apply s st t) :
    st = .optimal := by
  have hsolve {u v : Run P K} {st : Status} (hk : kept u.problem u.lp)
      (hs : Returns Action.solveModel u st v) : st = .optimal ∧ kept v.problem v.lp := by
    obtain ⟨-, hm⟩ := Action.returns_solveModel hs
    obtain rfl := hopt hk hm
    exact ⟨rfl, (w.solveModel hk hs).1⟩
  obtain ⟨u, ⟨hst, -⟩, -⟩ := exists_of_generating
    (motive := fun st u => st = .optimal ∧ kept u.problem u.lp) (hsolve hk)
    (fun ht hf hs => hsolve (w.extend ht.2 hf hs)) hr
  exact hst

end Generate

end Oracle

end LPRounding
