import LPRounding.Proofs.Run.Generation

/-!
Search strategies. They go through the candidates in different orders and report different
violations, but agree on whether there is one: a cyclic scan stops at the first candidate that is
violated, and the search for the worst keeps the earliest of the largest violations.
-/

namespace LPRounding

set_option linter.unusedSectionVars false

variable {P K S C N : Type} [Field K] [LinearOrder K] [IsStrictOrderedRing K] [FloorRing K]

namespace Search

variable {tol : Tolerance K} {check : C → Except (Fault K) (Violation K C)}
  {violation : C → Violation K C} {cs : List C}

/-- The search went through the candidates in order and stopped at the first one that is violated. -/
def StopsAtFirst (tol : Tolerance K) (violation : C → Violation K C) (order : List C)
    (s : Search K C) : Prop :=
  ∃ before c after, order = before ++ c :: after ∧
    (∀ d ∈ before, (violation d).magnitude ≤ tol.epsilon) ∧ tol.epsilon < (violation c).magnitude ∧
    s.found = some (violation c) ∧ s.checked = before ++ [c]

/-- The search went through all candidates and kept the earliest of the largest violations. -/
def KeepsLargest (violation : C → Violation K C) (cs : List C) (s : Search K C) : Prop :=
  ∃ before c after, cs = before ++ c :: after ∧
    (∀ d ∈ before, (violation d).magnitude < (violation c).magnitude) ∧
    (∀ d ∈ after, (violation d).magnitude ≤ (violation c).magnitude) ∧
    s.found = some (violation c) ∧ s.checked = cs

/-- No candidate is violated, and the search went through all of them to say so. -/
def FindsNone (tol : Tolerance K) (violation : C → Violation K C) (order : List C)
    (s : Search K C) : Prop :=
  (∀ c ∈ order, (violation c).magnitude ≤ tol.epsilon) ∧ s.found = none ∧ s.checked = order

theorem violated_iff {v : Violation K C} : violated tol v = true ↔ tol.epsilon < v.magnitude := by
  rw [violated, Tolerance.above_iff, zero_add]

theorem scan_spec (tol : Tolerance K) (h : ∀ c ∈ cs, check c = .ok (violation c)) : ∃ s, scan tol check cs = .ok s ∧
    (FindsNone tol violation cs s ∨ StopsAtFirst tol violation cs s) := by
  induction cs with
  | nil => exact ⟨_, rfl, .inl ⟨by simp, rfl, rfl⟩⟩
  | cons c rest ih =>
    have hc := h c List.mem_cons_self
    by_cases hlarge : tol.epsilon < (violation c).magnitude
    · refine ⟨{ found := some (violation c), checked := [c] },
        ok_bind_iff.mpr ⟨_, hc, ?_⟩, .inr ⟨[], c, rest, rfl, by simp, hlarge, rfl, rfl⟩⟩
      rw [if_pos (violated_iff.mpr hlarge)]
      rfl
    · obtain ⟨s, hs, hspec⟩ := ih fun d hd => h d (List.mem_cons_of_mem _ hd)
      have hle := not_lt.mp hlarge
      refine ⟨{ s with checked := c :: s.checked }, ok_bind_iff.mpr ⟨_, hc, ?_⟩, ?_⟩
      · rw [if_neg (mt violated_iff.mp hlarge)]
        exact ok_bind_iff.mpr ⟨s, hs, rfl⟩
      · rcases hspec with ⟨hall, hfound, hchecked⟩ | ⟨before, d, after, rfl, hbefore, hd, hfound, hchecked⟩
        · exact .inl ⟨List.forall_mem_cons.mpr ⟨hle, hall⟩, hfound, congrArg (c :: ·) hchecked⟩
        · exact .inr ⟨c :: before, d, after, rfl, List.forall_mem_cons.mpr ⟨hle, hbefore⟩, hd, hfound,
            congrArg (c :: ·) hchecked⟩

theorem foldl_worse_spec (violation : C → Violation K C) (before rest after : List C) (b : C)
    (hbefore : ∀ d ∈ before, (violation d).magnitude < (violation b).magnitude)
    (hrest : ∀ d ∈ rest, (violation d).magnitude ≤ (violation b).magnitude) :
    ∃ before' c after', before ++ b :: (rest ++ after) = before' ++ c :: after' ∧
      (after.map violation).foldl worse (some (violation b)) = some (violation c) ∧
      (∀ d ∈ before', (violation d).magnitude < (violation c).magnitude) ∧
      ∀ d ∈ after', (violation d).magnitude ≤ (violation c).magnitude := by
  induction after generalizing before b rest with
  | nil => exact ⟨before, b, rest, by simp, rfl, hbefore, hrest⟩
  | cons d after ih =>
    rw [List.map_cons, List.foldl_cons, worse]
    split
    · next hlt =>
      have hbefore' : ∀ e ∈ before ++ b :: rest, (violation e).magnitude < (violation d).magnitude := by
        intro e he
        rcases List.mem_append.mp he with he | he
        · exact (hbefore e he).trans hlt
        · rcases List.mem_cons.mp he with rfl | he
          · exact hlt
          · exact (hrest e he).trans_lt hlt
      obtain ⟨before', c, after', hsplit, hspec⟩ := ih (before ++ b :: rest) [] d hbefore' (by simp)
      exact ⟨before', c, after', by simpa using hsplit, hspec⟩
    · next hge =>
      have hrest' : ∀ e ∈ rest ++ [d], (violation e).magnitude ≤ (violation b).magnitude := by
        intro e he
        rcases List.mem_append.mp he with he | he
        · exact hrest e he
        · obtain rfl := List.mem_singleton.mp he
          exact not_lt.mp hge
      obtain ⟨before', c, after', hsplit, hspec⟩ := ih before (rest ++ [d]) b hbefore hrest'
      exact ⟨before', c, after', by simpa using hsplit, hspec⟩

theorem worst_spec (tol : Tolerance K) (h : ∀ c ∈ cs, check c = .ok (violation c)) : ∃ s, worst tol check cs = .ok s ∧
    (FindsNone tol violation cs s ∨
      KeepsLargest violation cs s ∧ ∃ c ∈ cs, tol.epsilon < (violation c).magnitude) := by
  have hall : cs.mapM check = .ok (cs.map violation) :=
    mapM_ok_iff.mpr (List.forall₂_map_right_iff.mpr (List.forall₂_same.mpr h))
  refine ⟨_, ok_bind_iff.mpr ⟨_, hall, rfl⟩, ?_⟩
  cases cs with
  | nil => exact .inl ⟨by simp, rfl, rfl⟩
  | cons b rest =>
    obtain ⟨before, c, after, hsplit, hfold, hlt, hle⟩ :=
      foldl_worse_spec violation [] [] rest b (by simp) (by simp)
    have hfold : ((b :: rest).map violation).foldl worse none = some (violation c) := hfold
    rw [hfold]
    have hsplit : b :: rest = before ++ c :: after := by simpa using hsplit
    by_cases hlarge : tol.epsilon < (violation c).magnitude
    · refine .inr ⟨⟨before, c, after, hsplit, hlt, hle, ?_, rfl⟩, c, hsplit ▸ by simp, hlarge⟩
      simp [Option.filter, violated_iff.mpr hlarge]
    · refine .inl ⟨fun d hd => ?_, ?_, rfl⟩
      · refine le_trans ?_ (not_lt.mp hlarge)
        rw [hsplit] at hd
        rcases List.mem_append.mp hd with hd | hd
        · exact (hlt d hd).le
        · rcases List.mem_cons.mp hd with rfl | hd
          · exact le_rfl
          · exact hle d hd
      · simp [Option.filter, mt violated_iff.mp hlarge]

theorem rotate_eq (start : Nat) (cs : List C) : rotate start cs = cs.rotate start := by
  rw [List.rotate_eq_drop_append_take_mod]
  rfl

end Search

namespace Oracle

variable [Dice S K]

/-- The candidates in the order in which an oracle goes through them. -/
def order (o : Oracle K S C N) (cs : List C) : List C :=
  match o.strategy with
  | .first | .most => cs
  | .random => cs.rotate (Dice.below cs.length o.dice).1

/-- What the strategy of an oracle says of a search that found a violation. -/
def FoundBy (o : Oracle K S C N) (tol : Tolerance K) (violation : C → Violation K C) (cs : List C)
    (s : Search K C) : Prop :=
  match o.strategy with
  | .first | .random => Search.StopsAtFirst tol violation (o.order cs) s
  | .most => Search.KeepsLargest violation cs s

/-- What a search comes to, by whether some candidate is violated. -/
structure Settles (o : Oracle K S C N) (tol : Tolerance K) (violation : C → Violation K C)
    (cs : List C) (s : Search K C) : Prop where
  none_iff : s.found = none ↔ ∀ c ∈ cs, (violation c).magnitude ≤ tol.epsilon
  clear : s.found = none → Search.FindsNone tol violation (o.order cs) s
  found : s.found ≠ none → o.FoundBy tol violation cs s

variable {tol : Tolerance K} {violation : C → Violation K C} {cs : List C} {o : Oracle K S C N}

theorem mem_order {c : C} : c ∈ o.order cs ↔ c ∈ cs := by
  unfold order
  split
  · rfl
  · rfl
  · exact List.mem_rotate

theorem Settles.of_none {s : Search K C} (h : Search.FindsNone tol violation (o.order cs) s) :
    o.Settles tol violation cs s :=
  ⟨iff_of_true h.2.1 fun c hc => h.1 c (mem_order.mpr hc), fun _ => h, fun hne => absurd h.2.1 hne⟩

theorem Settles.of_some {s : Search K C} {c : C} (hc : c ∈ cs)
    (hlarge : tol.epsilon < (violation c).magnitude) (hsome : s.found ≠ none)
    (h : o.FoundBy tol violation cs s) : o.Settles tol violation cs s :=
  ⟨iff_of_false hsome fun hall => not_le.mpr hlarge (hall c hc), fun hn => absurd hn hsome, fun _ => h⟩

theorem Settles.of_scan {s : Search K C} (hstrategy : o.strategy ≠ .most)
    (h : Search.FindsNone tol violation (o.order cs) s ∨
      Search.StopsAtFirst tol violation (o.order cs) s) : o.Settles tol violation cs s := by
  rcases h with h | h
  · exact .of_none h
  · obtain ⟨before, c, after, hsplit, -, hlarge, hfound, -⟩ := id h
    have hc : c ∈ cs := mem_order.mp (hsplit ▸ List.mem_append_right _ List.mem_cons_self)
    refine .of_some hc hlarge (by simp [hfound]) ?_
    unfold FoundBy
    split
    · exact h
    · exact h
    · next hmost => exact absurd hmost hstrategy

/-- A search by any strategy. -/
theorem search_spec {check : C → Except (Fault K) (Violation K C)}
    (h : ∀ c ∈ cs, check c = .ok (violation c)) (o : Oracle K S C N) :
    ∃ s o', Returns (search tol check cs) o s o' ∧ o.Settles tol violation cs s := by
  simp only [search, returns_bind, returns_get]
  cases hstrategy : o.strategy with
  | first =>
    have horder : o.order cs = cs := by rw [order, hstrategy]
    obtain ⟨s, hs, hspec⟩ := Search.scan_spec tol h
    refine ⟨s, o, ⟨o, o, ⟨rfl, rfl⟩, ?_⟩, .of_scan (by simp [hstrategy]) (by rwa [horder])⟩
    rw [hstrategy]
    exact returns_lift.mpr ⟨hs, rfl⟩
  | most =>
    have horder : o.order cs = cs := by rw [order, hstrategy]
    obtain ⟨s, hs, hspec⟩ := Search.worst_spec tol h
    refine ⟨s, o, ⟨o, o, ⟨rfl, rfl⟩, ?_⟩, ?_⟩
    · rw [hstrategy]
      exact returns_lift.mpr ⟨hs, rfl⟩
    · rcases hspec with hnone | ⟨hmost, c, hc, hlarge⟩
      · exact .of_none (by rwa [horder])
      · obtain ⟨-, d, -, -, -, -, hfound, -⟩ := id hmost
        refine .of_some hc hlarge (by simp [hfound]) ?_
        rw [FoundBy, hstrategy]
        exact hmost
  | random =>
    have horder : o.order cs = cs.rotate (Dice.below cs.length o.dice).1 := by rw [order, hstrategy]
    have hrotated : ∀ c ∈ cs.rotate (Dice.below cs.length o.dice).1, check c = .ok (violation c) :=
      fun c hc => h c (List.mem_rotate.mp hc)
    obtain ⟨s, hs, hspec⟩ := Search.scan_spec tol hrotated
    refine ⟨s, { o with dice := (Dice.below cs.length o.dice).2 }, ⟨o, o, ⟨rfl, rfl⟩, ?_⟩,
      .of_scan (by simp [hstrategy]) (by rwa [horder])⟩
    rw [hstrategy]
    simp only [returns_bind, returns_get, returns_modify, returns_lift]
    exact ⟨o, o, ⟨rfl, rfl⟩, ⟨⟩, _, rfl, by rw [Search.rotate_eq, hs], by rw [← hstrategy]⟩

variable {k : Checker P K C N} {p : P} {m : Model K} {n : N}

theorem examine_spec (tol : Tolerance K) (hp : k.prepare p m = .ok (n, cs))
    (hc : ∀ c ∈ cs, k.check p n c = .ok (violation c)) (o : Oracle K S C N) :
    ∃ s o', Returns (examine k tol p m) o s o' ∧ o'.violation = s.found ∧
      o.Settles tol violation cs s := by
  by_cases hempty : cs = []
  -- without candidates no strategy is asked, but an older violation is forgotten
  · subst hempty
    refine ⟨{ found := none, checked := [] }, { o with prepared := some n, violation := none }, ?_, rfl,
      .of_none ⟨fun c hc => absurd (mem_order.mp hc) (by simp), rfl, ?_⟩⟩
    · simp [examine, hp]
    · exact (List.eq_nil_iff_forall_not_mem.mpr fun c hc => absurd (mem_order.mp hc) (by simp)).symm
  · obtain ⟨s, o', hs, hspec⟩ := search_spec hc { o with prepared := some n }
    refine ⟨s, { o' with violation := s.found }, ?_, rfl, hspec.1, hspec.2, hspec.3⟩
    simp only [examine, returns_bind, returns_lift, returns_modify]
    refine ⟨(n, cs), o, ⟨hp, rfl⟩, ⟨⟩, _, rfl, ?_⟩
    rw [if_neg (by simpa using hempty)]
    simp only [returns_bind, returns_modify, returns_pure]
    exact ⟨s, o', hs, ⟨⟩, _, rfl, rfl, rfl⟩

theorem returns_lift_home {α : Type} {h : Home P K S C N} {f : P → EStateM (Fault K) (Oracle K S C N) α}
    {a : α} {o : Oracle K S C N} (hf : Returns (f p) (h.get p) a o) :
    Returns (h.lift f) p a (h.set p o) := by
  unfold Returns at hf
  simp [Returns, Home.lift, hf]

/-- Oracles with one checker give the same verdict at one point, whatever their strategies and their
starting points: the point is rejected exactly when some candidate is violated. Each reports what
its own order of search makes it report. -/
theorem strategies_agree (h : Home P K S C N) (k : Checker P K C N) (tolerance : P → Tolerance K)
    (s : Run P K) (hget : ∀ q o, h.get (h.set q o) = o)
    (hp : ∀ o, k.prepare (h.set s.problem o) s.lp = .ok (n, cs))
    (hc : ∀ o, ∀ c ∈ cs, k.check (h.set s.problem o) n c = .ok (violation c))
    (htol : ∀ o, tolerance (h.set s.problem o) = tol) (o : Oracle K S C N) :
    ∃ b found t,
      Returns (feasible h k tolerance) { s with problem := h.set s.problem o } b t ∧
      Returns (examine k tol (h.set s.problem o) s.lp) o found (h.get t.problem) ∧
      (h.get t.problem).violation = found.found ∧ t.lp = s.lp ∧
      (b = false ↔ ∃ c ∈ cs, tol.epsilon < (violation c).magnitude) ∧
      (b = true → found.FindsNone tol violation (o.order cs)) ∧
      (b = false → o.FoundBy tol violation cs found) := by
  obtain ⟨found, o', hreturn, hviolation, hspec⟩ := examine_spec tol (hp o) (hc o) o
  have hverdict : found.found.isNone = false ↔ ∃ c ∈ cs, tol.epsilon < (violation c).magnitude := by
    rw [← Bool.not_eq_true, Option.isNone_iff_eq_none, hspec.none_iff]
    push Not
    rfl
  have hlift : Returns (h.lift fun p => examine k (tolerance p) p s.lp) (h.set s.problem o) found
      (h.set (h.set s.problem o) o') :=
    returns_lift_home (by rw [hget, htol]; exact hreturn)
  have hkept : h.get (h.set (h.set s.problem o) o') = o' := hget _ _
  refine ⟨found.found.isNone, found, { s with problem := h.set (h.set s.problem o) o' }, ?_,
    by rwa [hkept], by rw [hkept, hviolation], rfl, hverdict,
    fun hb => hspec.clear (by simpa using hb), fun hb => hspec.found fun hnone => by simp [hnone] at hb⟩
  simp only [feasible, returns_bind, Action.returns_model, Action.returns_onProblem, returns_pure]
  exact ⟨s.lp, _, ⟨rfl, rfl⟩, found, _, ⟨_, hlift, rfl⟩, rfl, rfl⟩

@[reducible] def constantDice : Dice Nat K where
  below _ s := (s, s)
  unit s := (0, s)
  weighted _ s := .ok (s, s)

def tenths (cs : List Nat) : Checker (Oracle ℚ Nat Nat Unit) ℚ Nat Unit where
  prepare _ _ := .ok ((), cs)
  check _ _ c := .ok { magnitude := c / 10, candidate := c, witness := [], side := 1 }
  row _ v := cover .lower v.side 0 []
  describe c := .node (.number c)

def alone : Home (Oracle ℚ Nat Nat Unit) ℚ Nat Nat Unit where
  get := id
  set _ o := o

theorem fives_reported : let _ : Dice Nat ℚ := constantDice
    ∀ strategy, let o : Oracle ℚ Nat Nat Unit := { strategy, dice := 2 }
      ∃ found t, Returns (feasible alone (tenths [0, 5, 0, 2, 5]) fun _ => ⟨1 / 4⟩) { problem := o } false t ∧
        o.FoundBy ⟨1 / 4⟩ (fun c => { magnitude := c / 10, candidate := c, witness := [], side := 1 })
          [0, 5, 0, 2, 5] found := by
  intro _ strategy o
  obtain ⟨b, found, t, hb, -, -, -, hverdict, -, hreports⟩ := strategies_agree alone
    (tenths [0, 5, 0, 2, 5]) (fun _ => ⟨1 / 4⟩) { problem := o } (fun _ _ => rfl) (fun _ => rfl)
    (fun _ _ _ => rfl) (fun _ => rfl) o
  obtain rfl : b = false := hverdict.mpr ⟨5, by simp, by norm_num⟩
  exact ⟨found, t, hb, hreports rfl⟩

end Oracle

end LPRounding
