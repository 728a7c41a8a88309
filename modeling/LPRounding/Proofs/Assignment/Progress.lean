import LPRounding.Proofs.Assignment.Invariant
import LPRounding.Proofs.Assignment.Answer
import LPRounding.Proofs.Run.Progress

/-!
Generalised assignment: no run is stuck. At a vertex whose open columns are strictly between zero
and one, these are no more than the jobs and machines they belong to; each of the jobs has two at
least, so some machine has at most two, and together these make up a whole job.
-/

namespace LPRounding.Assignment

set_option linter.unusedSectionVars false

variable {K : Type} [Field K] [LinearOrder K] [IsStrictOrderedRing K] [FloorRing K]

section Counts

variable {κ μ : Type} [DecidableEq κ] [DecidableEq μ] {A : Finset (κ × μ)} {y : κ × μ → K}

theorem two_mul_card_image_le (hjob : ∀ k ∈ A.image Prod.fst, ∑ a ∈ A with a.1 = k, y a = 1)
    (hlt : ∀ a ∈ A, y a < 1) : 2 * (A.image Prod.fst).card ≤ A.card := by
  rw [Finset.card_eq_sum_card_fiberwise fun a ha => Finset.mem_image_of_mem Prod.fst ha, mul_comm]
  refine Finset.card_nsmul_le_sum _ _ 2 fun k hk => ?_
  by_contra hcard
  -- a single fraction would be the whole job
  obtain ⟨a, ha, rfl⟩ := Finset.mem_image.mp hk
  have hone : A.filter (fun b => b.1 = a.1) = {a} := by
    refine Finset.eq_singleton_iff_unique_mem.mpr ⟨Finset.mem_filter.mpr ⟨ha, rfl⟩, ?_⟩
    intro b hb
    exact Finset.card_le_one.mp (by omega) b hb a (Finset.mem_filter.mpr ⟨ha, rfl⟩)
  have := hjob a.1 hk
  rw [hone, Finset.sum_singleton] at this
  exact (hlt a ha).ne this

def counting (R : Finset μ) (C : μ → Finset κ) : Finset (κ × μ) :=
  R.biUnion fun i => (C i).image fun k => (k, i)

theorem sum_counting {M : Type} [AddCommMonoid M] (R : Finset μ) (C : μ → Finset κ)
    (f : κ × μ → M) : ∑ a ∈ counting R C, f a = ∑ i ∈ R, ∑ k ∈ C i, f (k, i) := by
  have hdisj : (R : Set μ).PairwiseDisjoint fun i => (C i).image fun k => (k, i) := by
    intro i _ i' _ hne
    refine Finset.disjoint_left.mpr fun a ha ha' => hne ?_
    obtain ⟨k, -, rfl⟩ := Finset.mem_image.mp ha
    obtain ⟨k', -, heq⟩ := Finset.mem_image.mp ha'
    exact (Prod.mk.inj heq).2.symm
  rw [counting, Finset.sum_biUnion hdisj]
  exact Finset.sum_congr rfl fun i _ =>
    Finset.sum_image fun k _ k' _ h => (Prod.mk.inj h).1

/-- Fractions of jobs on machines, `R` those whose rows are kept: if each of these has two fractions
or more that count, and more than two where two make up a job, there are too many fractions. -/
theorem eq_empty_of_counts {R : Finset μ} {C : μ → Finset κ} {ε : K} (hε : 0 < ε)
    (hrank : A.card ≤ (A.image Prod.fst).card + R.card)
    (hjob : ∀ k ∈ A.image Prod.fst, ∑ a ∈ A with a.1 = k, y a = 1)
    (hlt : ∀ a ∈ A, y a < 1) (hC : ∀ i ∈ R, ∀ k ∈ C i, (k, i) ∈ A)
    (htwo : ∀ i ∈ R, 2 ≤ (C i).card)
    (hsum : ∀ i ∈ R, (C i).card = 2 → ∑ k ∈ C i, y (k, i) < 1 - ε) : A = ∅ := by
  have hjobs := two_mul_card_image_le hjob hlt
  have hcard : (counting R C).card = ∑ i ∈ R, (C i).card := by
    simp only [Finset.card_eq_sum_ones, sum_counting]
  have hsub : counting R C ⊆ A := by
    intro a ha
    obtain ⟨i, hi, ha⟩ := Finset.mem_biUnion.mp ha
    obtain ⟨k, hk, rfl⟩ := Finset.mem_image.mp ha
    exact hC i hi k hk
  have hmachines : 2 * R.card ≤ ∑ i ∈ R, (C i).card := by
    rw [mul_comm]
    exact Finset.card_nsmul_le_sum _ _ 2 htwo
  -- the counts leave no room: every fraction counts, and every machine has two
  have hle := Finset.card_le_card hsub
  have hall : counting R C = A := Finset.eq_of_subset_of_card_le hsub (by omega)
  have heach : ∀ i ∈ R, 2 = (C i).card := by
    refine (Finset.sum_eq_sum_iff_of_le htwo).mp ?_
    rw [Finset.sum_const, smul_eq_mul]
    omega
  have htotal : ∑ a ∈ A, y a = (A.image Prod.fst).card := by
    rw [← Finset.sum_fiberwise_of_maps_to (fun a ha => Finset.mem_image_of_mem Prod.fst ha),
      Finset.sum_congr rfl hjob]
    simp
  by_contra hne
  have hpos : 0 < A.card := Finset.card_pos.mpr (Finset.nonempty_iff_ne_empty.mpr hne)
  have hR : R.Nonempty := Finset.card_pos.mp (by omega)
  have hless : ∑ a ∈ A, y a < R.card := by
    rw [← hall, sum_counting]
    calc ∑ i ∈ R, ∑ k ∈ C i, y (k, i)
        < ∑ _i ∈ R, (1 - ε) :=
          Finset.sum_lt_sum_of_nonempty hR fun i hi => hsum i hi (heach i hi).symm
      _ = R.card * (1 - ε) := by rw [Finset.sum_const, nsmul_eq_mul]
      _ ≤ R.card := mul_le_of_le_one_right (Nat.cast_nonneg _) (by linarith)
  rw [htotal, Nat.cast_lt] at hless
  omega

end Counts

variable {p : Assignment K} {m : Model K} {x : List K}

def openPairs (p : Assignment K) (m : Model K) :
    Finset (Fin p.jobs.length × Fin p.machines.length) :=
  Finset.univ.filter fun a => m.fixedAt (p.slot a.1 a.2) = none

def keptMachines (p : Assignment K) (m : Model K) : Finset (Fin p.machines.length) :=
  Finset.univ.filter fun i => p.jobs.length + (i : Nat) ∈ m.activeRows

theorem mem_openPairs {a : Fin p.jobs.length × Fin p.machines.length} :
    a ∈ openPairs p m ↔ m.fixedAt (p.slot a.1 a.2) = none := by
  simp [openPairs]

theorem mem_keptMachines {i : Fin p.machines.length} :
    i ∈ keptMachines p m ↔ p.jobs.length + (i : Nat) ∈ m.activeRows := by
  simp [keptMachines]

theorem Framed.slot_lt (h : Framed p m) (k : Fin p.jobs.length) (i : Fin p.machines.length) :
    p.slot k i < m.columns.length := by
  rw [h.grown.length]
  simpa [model] using Assignment.slot_lt k i

theorem Framed.exists_slot (h : Framed p m) {c : Nat} (hc : c < m.columns.length) :
    ∃ k i, c = p.slot k i := by
  rw [h.grown.length] at hc
  exact Assignment.exists_slot (by simpa [model] using hc)

theorem Framed.mem_activeColumns (h : Framed p m) {a : Fin p.jobs.length × Fin p.machines.length} :
    p.slot a.1 a.2 ∈ m.activeColumns ↔ a ∈ openPairs p m := by
  rw [Model.mem_activeColumns_iff, mem_openPairs, and_iff_right (h.slot_lt a.1 a.2)]

theorem weights_jobRow (k : Fin p.jobs.length) (d : Nat → K) :
    weights (p.jobRow k).coefs d = ∑ i, d (p.slot k i) := by
  simp [weights_apply, jobRow, slot, Function.comp_def, ← List.map_coe_finRange_eq_range,
    ← Fin.sum_univ_def]

theorem Framed.sum_openPairs (h : Framed p m) (hx : m.Admits x)
    (hpos : ∀ a ∈ openPairs p m, 0 < x.getD (p.slot a.1 a.2) 0) {k : Fin p.jobs.length}
    (hk : k ∈ (openPairs p m).image Prod.fst) :
    ∑ a ∈ openPairs p m with a.1 = k, x.getD (p.slot a.1 a.2) 0 = 1 := by
  have hset : (openPairs p m).filter (fun a => a.1 = k) =
      (Finset.univ.filter fun i => (k, i) ∈ openPairs p m).image fun i => (k, i) := by
    ext a
    simp only [Finset.mem_filter, Finset.mem_image, Finset.mem_univ, true_and]
    constructor
    · rintro ⟨ha, rfl⟩
      exact ⟨a.2, ha, rfl⟩
    · rintro ⟨i, hi, rfl⟩
      exact ⟨hi, rfl⟩
  rw [hset, Finset.sum_image fun i _ i' _ heq => (Prod.mk.inj heq).2, ← h.sum_job hx k]
  refine Finset.sum_subset (Finset.filter_subset _ _) fun i _ hi => ?_
  have hclosed : (k, i) ∉ openPairs p m :=
    fun ho => hi (Finset.mem_filter.mpr ⟨Finset.mem_univ i, ho⟩)
  obtain ⟨v, hv⟩ := Option.ne_none_iff_exists'.mp fun hn => hclosed (mem_openPairs.mpr hn)
  rcases h.integral _ v hv with rfl | rfl
  · exact hx.fixed hv (h.getElem? hx k i)
  · -- beside a machine that has the whole job no other could have a part of it
    exfalso
    obtain ⟨⟨k', j⟩, hj, rfl⟩ := Finset.mem_image.mp hk
    have hone : x.getD (p.slot k' i) 0 = 1 := hx.fixed hv (h.getElem? hx k' i)
    have hne : i ≠ j := by
      rintro rfl
      exact hclosed hj
    have hle := Finset.sum_le_sum_of_subset_of_nonneg (Finset.subset_univ {i, j})
      fun i _ _ => h.nonneg hx k' i
    rw [Finset.sum_pair hne, hone, h.sum_job hx] at hle
    linarith [hpos _ hj]

theorem Framed.card_openPairs_le (h : Framed p m) (hv : m.system.Vertex x)
    (hpos : ∀ a ∈ openPairs p m, 0 < x.getD (p.slot a.1 a.2) 0) :
    (openPairs p m).card ≤
      ((openPairs p m).image Prod.fst).card + (keptMachines p m).card := by
  have hx := Model.feasible_iff_admits.mp hv.feasible
  rw [← Finset.card_disjSum, ← Finset.card_image_of_injective _ slot_injective]
  refine card_le_of_determined (Sum.elim (fun k => weights (p.jobRow k).coefs)
    fun i => weights (p.machineRow i p.machines[i]).coefs) fun d hd hrows => ?_
  have hclosed {k i} (ho : (k, i) ∉ openPairs p m) : d (p.slot k i) = 0 := by
    refine hd _ fun hm => ?_
    obtain ⟨a, ha, heq⟩ := Finset.mem_image.mp hm
    obtain rfl : a = (k, i) := slot_injective heq
    exact ho ha
  refine Model.eq_zero_of_vertex hv (fun j hj => ?_) fun r hr hk => .inr ?_
  · obtain ⟨⟨k, i⟩, ha, rfl⟩ : ∃ a ∈ openPairs p m, p.slot a.1 a.2 = j := by
      by_contra hno
      exact hj (hd j fun hm => hno (by simpa using hm))
    obtain ⟨c, hc, hf⟩ := Model.mem_activeColumns.mp (h.mem_activeColumns.mpr ha)
    refine ⟨c, hc, hf, ?_⟩
    have hvalue := h.open_value hx (mem_openPairs.mp ha)
    obtain ⟨c₀, h₀, -, hb⟩ := h.grown.column hc
    obtain rfl := Option.some.inj ((column_at k i).symm.trans h₀)
    have hfit : p.time p.jobs[k] p.machines[i] ≤ p.budget p.machines[i] := by
      by_contra hn
      exact (hpos _ ha).ne' (hvalue.2 hn)
    rw [hb, column, if_pos hfit]
    simpa [Bound.Inside, Bound.floor?, Bound.ceiling?] using hpos _ ha
  · obtain ⟨n, hn, rfl⟩ := List.getElem_of_mem hr
    have hlen := h.rowCount
    by_cases hjob : n < p.jobs.length
    · obtain ⟨-, hc⟩ := h.grown.row (jobRow_at ⟨n, hjob⟩) (List.getElem?_eq_getElem hn)
      rw [hc]
      by_cases hmem : (⟨n, hjob⟩ : Fin p.jobs.length) ∈ (openPairs p m).image Prod.fst
      · exact hrows (.inl ⟨n, hjob⟩) (Finset.inl_mem_disjSum.mpr hmem)
      · rw [weights_jobRow ⟨n, hjob⟩]
        refine Finset.sum_eq_zero fun i _ => hclosed fun ho => hmem ?_
        exact Finset.mem_image.mpr ⟨_, ho, rfl⟩
    · obtain ⟨i, rfl⟩ : ∃ i : Fin p.machines.length, n = p.jobs.length + i :=
        ⟨⟨n - p.jobs.length, by omega⟩, by simp only; omega⟩
      obtain ⟨-, hc⟩ := h.grown.row (machineRow_at i) (List.getElem?_eq_getElem hn)
      rw [hc]
      refine hrows (.inr i) (Finset.inr_mem_disjSum.mpr (mem_keptMachines.mpr ?_))
      exact Model.mem_activeRows.mpr ⟨_, List.getElem?_eq_getElem hn, hk⟩

/-- At a vertex that leaves a column open some column can be rounded or some row relaxed. -/
theorem Framed.exists_move (h : Framed p m) (hε : 0 < p.tolerance.epsilon) {s : Solution K}
    (hs : m.solution = some s) (hv : m.system.Vertex s.values) (ho : m.activeColumns ≠ []) :
    (∃ c ∈ m.activeColumns, ∃ v, m.columnValue c = .ok v ∧
      (|v| < p.tolerance.epsilon ∨ |v - 1| < p.tolerance.epsilon)) ∨
    ∃ row ∈ m.activeRows, p.isMachineRow row = true ∧ ∃ d, m.rowDegree row = .ok d ∧
      (d ≤ 1 ∨ d = 2 ∧ ∃ v, m.rowSum row = .ok v ∧ 1 - p.tolerance.epsilon ≤ v) := by
  have hx := Model.feasible_iff_admits.mp hv.feasible
  by_contra hno
  rw [not_or] at hno
  obtain ⟨hcolumns, hrows⟩ := hno
  have hbetween : ∀ a ∈ openPairs p m, 0 < s.values.getD (p.slot a.1 a.2) 0 ∧
      s.values.getD (p.slot a.1 a.2) 0 < 1 := by
    intro a ha
    have hc := Model.columnValue_eq hs hx.length (h.slot_lt a.1 a.2)
    exact between_of_far hε (h.nonneg hx a.1 a.2) (h.le_one hx a.1 a.2) fun hnear =>
      hcolumns ⟨_, h.mem_activeColumns.mpr ha, _, hc, hnear⟩
  have hkept (i : Fin p.machines.length) (hi : i ∈ keptMachines p m) :
      ¬ ((openJobs p m i).card ≤ 1 ∨ (openJobs p m i).card = 2 ∧
        1 - p.tolerance.epsilon ≤ ∑ k ∈ openJobs p m i, s.values.getD (p.slot k i) 0) := by
    intro hgo
    have hrow := mem_keptMachines.mp hi
    obtain ⟨r, hr, hk⟩ := Model.mem_activeRows.mp hrow
    refine hrows ⟨_, hrow, by simp [isMachineRow], _, h.rowDegree hr, hgo.imp id ?_⟩
    rintro ⟨htwo, hge⟩
    obtain ⟨v, hv⟩ := Model.exists_rowSum hs hr fun e he => by
      rw [h.machine_coefs hr] at he
      obtain ⟨k, -, rfl⟩ := List.mem_map.mp he
      rw [hx.length]
      exact h.slot_lt k i
    exact ⟨htwo, v, hv, h.rowSum_eq hr hs hv ▸ hge⟩
  have hempty := eq_empty_of_counts (C := openJobs p m) hε
    (h.card_openPairs_le hv fun a ha => (hbetween a ha).1)
    (fun k hk => h.sum_openPairs hx (fun a ha => (hbetween a ha).1) hk)
    (fun a ha => (hbetween a ha).2)
    (fun i _ k hk => mem_openPairs.mpr (Model.counts_iff.mp (mem_openJobs.mp hk)).2.2)
    (fun i hi => not_le.mp fun hle => hkept i hi (.inl hle))
    fun i hi htwo => not_le.mp fun hge => hkept i hi (.inr ⟨htwo, hge⟩)
  obtain ⟨c, hc⟩ := List.exists_mem_of_ne_nil _ ho
  obtain ⟨k, i, rfl⟩ := h.exists_slot (Model.mem_activeColumns_iff.mp hc).1
  have := h.mem_activeColumns (a := (k, i)).mp hc
  simp [hempty] at this

theorem Framed.not_refused (h : Framed p m) {solver : Solver K} (hs : solver.Exact) {e : Fault K} :
    ¬ m.Refused solver e := by
  by_cases hx : ∃ x, m.system.Feasible x
  · have hrange : ∀ x, m.system.Feasible x → ∀ j, |x.getD j 0| ≤ 1 := by
      intro x hx j
      have hx := Model.feasible_iff_admits.mp hx
      by_cases hj : j < m.columns.length
      · obtain ⟨k, i, rfl⟩ := h.exists_slot hj
        rw [abs_of_nonneg (h.nonneg hx k i)]
        exact h.le_one hx k i
      · rw [List.getD_eq_default _ _ (hx.length.trans_le (not_lt.mp hj)), abs_zero]
        exact zero_le_one
    obtain ⟨v, hv, hc⟩ := System.exists_cheapest_vertex hx hrange
    obtain ⟨y, c, hy, -⟩ := hs.optimal _ v hv hc
    simp [Model.Refused, hy]
  · have := (hs.infeasible m.system).mpr fun x hf => hx ⟨x, hf⟩
    simp [Model.Refused, this]

theorem relaxable_ends {s : Run (Assignment K) K} {row : Nat} {bad : Fault K → Prop}
    (h : Framed s.problem s.lp) (hv : s.lp.Valued) (hrow : row ∈ s.lp.activeRows) :
    Ends (relaxable row) s
      (fun b t => Engine.Still s t ∧ (b = true → s.problem.isMachineRow row = true)) bad := by
  simp only [relaxable, ends_bind, Action.ends_problem]
  split
  · exact ⟨⟨rfl, rfl⟩, by simp⟩
  next hm =>
  have hm : s.problem.isMachineRow row = true := by simpa using hm
  obtain ⟨i, rfl⟩ := exists_machine_row hm
  obtain ⟨r, hr, -⟩ := Model.mem_activeRows.mp hrow
  obtain ⟨x, hx, hlen⟩ := hv
  obtain ⟨v, hv⟩ := Model.exists_rowSum hx hr fun e he => by
    rw [h.machine_coefs hr] at he
    obtain ⟨k, -, rfl⟩ := List.mem_map.mp he
    rw [hlen]
    exact h.slot_lt k i
  simp only [ends_bind, Action.ends_model, ends_lift_ok (h.rowDegree hr)]
  split
  · exact ⟨⟨rfl, rfl⟩, fun _ => hm⟩
  split
  · rw [ends_bind, ends_lift_ok hv]
    exact ⟨⟨rfl, rfl⟩, fun _ => hm⟩
  · exact ⟨⟨rfl, rfl⟩, fun _ => hm⟩

theorem assign_ends {s : Run (Assignment K) K} {c : Nat} {j k : Node} {bad : Fault K → Prop}
    (hv : s.lp.Valued) (hc : c < s.lp.columns.length) :
    Ends (assign c j k) s (fun _ t => Engine.Still s t) bad := by
  obtain ⟨x, hx, hlen⟩ := hv
  simp only [assign, ends_bind, Action.ends_model, ends_lift_ok (Model.columnValue_eq hx hlen hc),
    ends_modify]
  split <;> exact ⟨rfl, rfl⟩

theorem assignAll_ends {s : Run (Assignment K) K} {entries : List ((Node × Node) × Nat)}
    {bad : Fault K → Prop} (hv : s.lp.Valued)
    (hc : ∀ e ∈ entries, e.2 < s.lp.columns.length) :
    Ends (entries.forM fun ((j, k), c) => assign c j k) s (fun _ t => Engine.Still s t) bad := by
  induction entries generalizing s with
  | nil => exact ⟨rfl, rfl⟩
  | cons e rest ih =>
    obtain ⟨⟨j, k⟩, c⟩ := e
    rw [ends_forM_cons]
    refine (assign_ends hv (hc _ List.mem_cons_self)).mono (fun _ t _ ht => ?_) fun _ => id
    refine (ih (ht.1 ▸ hv) fun e he => ?_).mono (fun _ u _ hu => ?_) fun _ => id
    · rw [ht.1]
      exact hc e (List.mem_cons_of_mem _ he)
    · exact ⟨hu.1.trans ht.1, hu.2.trans ht.2⟩

theorem readAnswer_ends {s : Run (Assignment K) K} {bad : Fault K → Prop}
    (h : Framed s.problem s.lp) (hv : s.lp.Valued) :
    Ends readAnswer s (fun _ t => Engine.Still s t) bad := by
  simp only [readAnswer, ends_bind, Action.ends_problem]
  refine assignAll_ends hv fun e he => ?_
  rw [h.grown.length, model, List.length_map]
  simpa using List.snd_lt_of_mem_zipIdx he

variable [Backend K]

theorem framed_keeps (p : Assignment K) (hsolver : (Backend.solver : Solver K).Sound) :
    Engine.Keeps (policies (K := K)) RoundRule.zeroThenOne.apply
      (fun q m => q = p ∧ Framed p m) (fun q m => q = p ∧ Framed p m ∧ m.Valued)
      (fun q m => q = p ∧ Framed p m ∧ m.Valued) := by
  have solve {s t : Run (Assignment K) K} (h : s.problem = p ∧ Framed p s.lp)
      (hs : Returns Action.solveModel s .optimal t) :
      t.problem = p ∧ Framed p t.lp ∧ t.lp.Valued := by
    obtain ⟨hp, hm⟩ := Action.returns_solveModel hs
    obtain ⟨sol, hlp, -⟩ := Model.returns_solve hm
    refine ⟨hp.trans h.1, ?_, (Model.solved_of_solve hsolver hm).valued⟩
    rw [hlp]
    exact h.2.solution sol
  refine ⟨solve, solve, id, fun h => ⟨h.1, h.2.1⟩, ?_, ?_, ?_, ?_⟩
  · intro s t j h
    obtain ⟨rfl, -⟩ := RoundRule.returns_zeroThenOne h
    exact ⟨rfl, rfl⟩
  · rintro s t j v m ⟨rfl, h, hvalued⟩ hr hf
    obtain ⟨rfl, y, -, hv⟩ := RoundRule.returns_zeroThenOne hr
    have h01 : v = 0 ∨ v = 1 := by split_ifs at hv <;> simp_all
    exact ⟨rfl, h.fix h01 hf, hvalued.fix hf⟩
  · intro s t i h
    obtain ⟨rfl, -⟩ := returns_relaxable h
    exact ⟨rfl, rfl⟩
  · rintro s t i m ⟨rfl, h, hvalued⟩ hr hf
    obtain ⟨rfl, hgo⟩ := returns_relaxable hr
    exact ⟨rfl, h.relax (hgo.mp rfl).1 hf, hvalued.relax hf⟩

theorem policies_live (p : Assignment K) (hsolver : (Backend.solver : Solver K).Exact)
    (hε : 0 < p.tolerance.epsilon) :
    Engine.Live (policies (K := K)) RoundRule.zeroThenOne.apply
      (fun q m => q = p ∧ Framed p m) (fun q m => q = p ∧ Framed p m ∧ m.Valued)
      (fun q m => q = p ∧ Framed p m ∧ m.Valued)
      (fun _ m => ∃ s, m.solution = some s ∧ m.system.Vertex s.values) p.isMachineRow
      fun _ => False := by
  have solve {s : Run (Assignment K) K} (h : s.problem = p ∧ Framed p s.lp) :
      Ends Action.solveModel s (fun st t =>
        (st = .optimal → ∃ x, t.lp.solution = some x ∧ t.lp.system.Vertex x.values) ∧
        t.lp.toGo p.isMachineRow = s.lp.toGo p.isMachineRow ∧ t.iterations = s.iterations)
        fun _ => False := by
    refine (Action.solveModel_ends h.2.loaded).mono (fun st t hr ht => ⟨?_, ht⟩) fun e he =>
      h.2.not_refused hsolver he
    rintro rfl
    exact Model.vertex_of_solve hsolver.extreme (Action.returns_solveModel hr).2
  refine ⟨solve, solve, ?_, ?_, ?_, rfl, ?_, ?_⟩
  · rintro s j ⟨-, -, x, hx, hlen⟩ hj
    have hc := Model.columnValue_eq hx hlen (Model.mem_activeColumns_iff.mp hj).1
    exact RoundRule.zeroThenOne_ends hc fun _ => ⟨rfl, rfl⟩
  · rintro s i ⟨rfl, h, hv⟩ hi
    exact relaxable_ends h hv hi
  · rintro s ⟨rfl, h, hv⟩ -
    exact readAnswer_ends h hv
  · rintro q m ⟨-, -, x, hx, -⟩
    simp [hx]
  · rintro s ⟨rfl, h, -⟩ ⟨x, hx, hv⟩ ho hcolumns hrows
    rcases h.exists_move hε hx hv ho with ⟨c, hc, v, hval, hnear⟩ | ⟨row, hrow, hgo⟩
    · obtain ⟨u, w, ⟨hp, hm⟩, hr⟩ := hcolumns c hc
      obtain ⟨-, y, hy, hnone⟩ := RoundRule.returns_zeroThenOne hr
      rw [hm, hval] at hy
      obtain rfl := Except.ok.inj hy
      rw [hp] at hnone
      rcases hnear with hz | ho
      · simp [Roundable.tolerance, hz] at hnone
      · simp only [Roundable.tolerance, ho, if_true] at hnone
        split at hnone <;> cases hnone
    · obtain ⟨u, w, ⟨hp, hm⟩, hr⟩ := hrows row hrow
      obtain ⟨-, hiff⟩ := returns_relaxable hr
      rw [hp, hm] at hiff
      exact Bool.false_ne_true (hiff.mpr hgo)

theorem toGo_model (p : Assignment K) : p.model.toGo p.isMachineRow ≤
    p.jobs.length * p.machines.length + p.machines.length := by
  have hcolumns : p.model.columns.length = p.jobs.length * p.machines.length := by
    rw [model, List.length_map, length_pairs]
  refine Model.toGo_le.trans (Nat.add_le_add hcolumns.le ?_)
  have hsub : p.model.activeRows.filter p.isMachineRow ⊆
      (List.range p.machines.length).map (p.jobs.length + ·) := by
    intro row hrow
    obtain ⟨i, rfl⟩ := exists_machine_row (List.mem_filter.mp hrow).2
    exact List.mem_map.mpr ⟨i, List.mem_range.mpr i.isLt, rfl⟩
  have hnodup : (p.model.activeRows.filter p.isMachineRow).Nodup :=
    (Model.nodup_positions _ _).filter _
  simpa using (hnodup.subperm hsub).length_le

/-- No run is stuck: every vertex that leaves a column open has a column next to zero or one, or a
machine whose row may go. So every run ends, after at most as many iterations as there are columns
and machines. -/
theorem assignment_never_stuck (p : Assignment K) (hsolver : (Backend.solver : Solver K).Exact)
    (hε : 0 < p.tolerance.epsilon) :
    (∀ t, Engine.Visits policies { problem := p } t → t.lp.activeColumns ≠ [] →
      (∃ c ∈ t.lp.activeColumns, ∃ v, t.lp.columnValue c = .ok v ∧
        (|v| < p.tolerance.epsilon ∨ |v - 1| < p.tolerance.epsilon)) ∨
      ∃ row ∈ t.lp.activeRows, p.isMachineRow row = true ∧ ∃ d, t.lp.rowDegree row = .ok d ∧
        (d ≤ 1 ∨ d = 2 ∧ ∃ v, t.lp.rowSum row = .ok v ∧ 1 - p.tolerance.epsilon ≤ v)) ∧
    (∀ e t, Engine.solveProblem policies { problem := p } = .error e t → e = .unfinished) ∧
    (p.jobs.length * p.machines.length + p.machines.length < Backend.passes K →
      ∃ out t, Returns (Engine.solveProblem policies) { problem := p } out t ∧
        (out.status = .optimal ∨ out.status = .infeasible) ∧
        t.iterations ≤ p.jobs.length * p.machines.length + p.machines.length) := by
  have k := framed_keeps p hsolver.extreme.sound
  have l := policies_live p hsolver hε
  have hends : Ends (Engine.solveProblem policies) { problem := p }
      (fun out t => (out.status = .optimal ∨ out.status = .infeasible) ∧
        t.iterations ≤ p.jobs.length * p.machines.length + p.machines.length)
      fun e => e = .unfinished ∧
        Backend.passes K ≤ p.jobs.length * p.machines.length + p.machines.length := by
    have hrun := Engine.run_ends k l rfl rfl
      (s := { problem := p, lp := p.model }) ⟨rfl, framed_model p⟩
    have hgo := toGo_model p
    simp only [Engine.solveProblem, Engine.checkInput, Roundable.check, policies, build, ends_bind,
      ends_pure, Action.ends_problem, Action.ends_setModel]
    refine Ends.mono hrun (fun out t _ h => ?_) fun e h => ?_
    · have hit : t.iterations ≤ 0 + p.model.toGo p.isMachineRow := h.2
      exact ⟨h.1, by omega⟩
    · rcases h with h | h
      · exact h.elim
      · exact ⟨h.1, h.2.trans hgo⟩
  refine ⟨fun t ht ho => ?_, fun e t h => ((ends_iff.mp hends).2 e t h).1, fun hpasses => ?_⟩
  · obtain ⟨⟨-, h, -⟩, x, hx, hv⟩ := ht.holds k l rfl rfl fun u v hc hi => by
      obtain rfl : ({ problem := p } : Run (Assignment K) K) = u := (returns_pure.mp hc).2
      simp only [policies, build, returns_bind, Action.returns_problem,
        Action.returns_setModel] at hi
      obtain ⟨_, _, ⟨rfl, rfl⟩, rfl⟩ := hi
      exact ⟨rfl, framed_model p⟩
    exact h.exists_move hε hx hv ho
  · refine Ends.exists_returns (hends.mono (fun _ _ _ => id) fun e he => ?_)
    exact absurd he.2 (not_le.mpr hpasses)

@[reducible] noncomputable def exactBackend : Backend ℚ where
  solver := Solver.exact
  flow _ _ _ := { value := 0, net := fun _ _ => 0 }
  passes := 7

theorem twins_ends :
    let _ := exactBackend
    ∃ (out : Outcome ℚ) (t : Run (Assignment ℚ) ℚ),
      Returns (Engine.solveProblem policies) { problem := twins } out t ∧
      (out.status = .optimal ∨ out.status = .infeasible) ∧ t.iterations ≤ 6 := by
  let _ := exactBackend
  exact (assignment_never_stuck twins Solver.exact_exact (by norm_num [twins])).2.2 (by decide)

end LPRounding.Assignment
