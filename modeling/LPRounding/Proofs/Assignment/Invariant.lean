import LPRounding.Proofs.Run.Invariant
import LPRounding.Proofs.Run.Rules
import LPRounding.Proofs.Sums
import LPRounding.Problem.Assignment

/-!
Generalised assignment: what every step of a run keeps. A machine row goes only when the machine
can no longer be overloaded by more than its longest job.
-/

namespace LPRounding

namespace Assignment

section Slots

variable {K : Type} {p : Assignment K}

def slot (p : Assignment K) (k : Fin p.jobs.length) (i : Fin p.machines.length) : Nat :=
  k * p.machines.length + i

def timeAt (p : Assignment K) (k : Fin p.jobs.length) (i : Fin p.machines.length) : K :=
  p.time p.jobs[k] p.machines[i]

theorem getElem?_grid {α β γ : Type} (xs : List α) (ys : List β) (f : α → β → γ) {k i : Nat}
    (hi : i < ys.length) :
    (xs.flatMap fun x => ys.map (f x))[k * ys.length + i]? = xs[k]?.map fun x => f x ys[i] := by
  induction xs generalizing k with
  | nil => simp
  | cons x xs ih =>
    rw [List.flatMap_cons]
    cases k with
    | zero => simp [List.getElem?_append_left, hi]
    | succ k =>
      have hk : (k + 1) * ys.length + i = ys.length + (k * ys.length + i) := by
        rw [Nat.succ_mul]
        omega
      rw [hk, List.getElem?_append_right (by simp), List.length_map, Nat.add_sub_cancel_left, ih]
      rfl

theorem pairs_slot (k : Fin p.jobs.length) (i : Fin p.machines.length) :
    p.pairs[p.slot k i]? = some (p.jobs[k], p.machines[i]) := by
  rw [pairs, slot, getElem?_grid _ _ _ i.isLt]
  simp

theorem length_pairs : p.pairs.length = p.jobs.length * p.machines.length := by
  simp [pairs, List.length_flatMap]

theorem exists_slot {c : Nat} (h : c < p.pairs.length) : ∃ k i, c = p.slot k i := by
  rw [length_pairs] at h
  have hn : 0 < p.machines.length := Nat.pos_of_mul_pos_left (Nat.zero_lt_of_lt h)
  refine ⟨⟨c / p.machines.length, Nat.div_lt_of_lt_mul (by rwa [Nat.mul_comm])⟩,
    ⟨c % p.machines.length, Nat.mod_lt _ hn⟩, ?_⟩
  exact (Nat.div_add_mod' c _).symm

theorem slot_lt (k : Fin p.jobs.length) (i : Fin p.machines.length) :
    p.slot k i < p.pairs.length :=
  (List.getElem?_eq_some_iff.mp (pairs_slot k i)).1

theorem jobRow_at [Scalar K] (k : Fin p.jobs.length) :
    p.model.rows[(k : Nat)]? = some (p.jobRow k) := by
  simp [model, List.getElem?_append_left]

theorem machineRow_at [Scalar K] (i : Fin p.machines.length) :
    p.model.rows[p.jobs.length + i]? = some (p.machineRow i p.machines[i]) := by
  simp [model]

theorem slot_injective :
    Function.Injective fun a : Fin p.jobs.length × Fin p.machines.length => p.slot a.1 a.2 := by
  rintro ⟨k, i⟩ ⟨k', i'⟩ h
  have hn : 0 < p.machines.length := i.pos
  have hdiv (k : Fin p.jobs.length) (i : Fin p.machines.length) :
      p.slot k i / p.machines.length = k := by
    rw [slot, Nat.mul_comm, Nat.mul_add_div hn, Nat.div_eq_of_lt i.isLt, Nat.add_zero]
  have hmod (k : Fin p.jobs.length) (i : Fin p.machines.length) :
      p.slot k i % p.machines.length = i := by
    rw [slot, Nat.mul_comm, Nat.mul_add_mod, Nat.mod_eq_of_lt i.isLt]
  have hslot : p.slot k i = p.slot k' i' := h
  refine Prod.ext (Fin.ext ?_) (Fin.ext ?_)
  · rw [← hdiv k i, ← hdiv k' i', hslot]
  · rw [← hmod k i, ← hmod k' i', hslot]

theorem column_at [Scalar K] (k : Fin p.jobs.length) (i : Fin p.machines.length) :
    p.model.columns[p.slot k i]? = some (p.column p.jobs[k] p.machines[i]) := by
  simp [model, pairs_slot]

theorem exists_machine_row {row : Nat} (h : p.isMachineRow row = true) :
    ∃ i : Fin p.machines.length, row = p.jobs.length + i := by
  simp only [isMachineRow, Bool.and_eq_true, decide_eq_true_eq] at h
  exact ⟨⟨row - p.jobs.length, by omega⟩, by simp; omega⟩

end Slots

set_option linter.unusedSectionVars false

variable {K : Type} [Field K] [LinearOrder K] [IsStrictOrderedRing K] [FloorRing K]

theorem slack_le {ι : Type} [DecidableEq ι] (picked : Finset ι) {o : Finset ι} {y : ι → K}
    {ε : K} (hy : ∀ k ∈ o, 0 ≤ y k) (hε : 0 ≤ ε)
    (hdeg : o.card ≤ 1 ∨ o.card = 2 ∧ 1 - ε ≤ ∑ k ∈ o, y k) :
    ∑ k ∈ picked ∩ o, (1 - y k) ≤ 1 + ε := by
  have hle : ∑ k ∈ picked ∩ o, (1 - y k) ≤ (picked ∩ o).card := by
    rw [← nsmul_one, ← Finset.sum_const]
    refine Finset.sum_le_sum fun k hk => ?_
    linarith [hy k (Finset.mem_inter.mp hk).2]
  have hsub : picked ∩ o ⊆ o := Finset.inter_subset_right
  have hcard := Finset.card_le_card hsub
  by_cases h1 : (picked ∩ o).card ≤ 1
  · have : ((picked ∩ o).card : K) ≤ 1 := by exact_mod_cast h1
    linarith
  · obtain ⟨h2, hsum⟩ := hdeg.resolve_left fun h => h1 (hcard.trans h)
    have heq : picked ∩ o = o := Finset.eq_of_subset_of_card_le hsub (by omega)
    rw [heq, Finset.sum_sub_distrib, Finset.sum_const, h2]
    norm_num
    linarith

/-- Of the jobs that are not settled when their row goes, at most two add to the load, and both
only if together they already make up almost one of the two. -/
theorem load_le {ι : Type} [DecidableEq ι] {all o picked : Finset ι} {t y : ι → K}
    {budget most ε : K} (ht : ∀ k ∈ all, 0 ≤ t k) (hy : ∀ k ∈ all, 0 ≤ y k)
    (hrow : ∑ k ∈ all, t k * y k ≤ budget) (hp : picked ⊆ all) (ho : o ⊆ all)
    (hset : ∀ k ∈ picked, k ∉ o → t k = t k * y k) (hone : ∀ k ∈ o, y k ≤ 1)
    (hm : ∀ k ∈ picked, t k ≤ most) (h0 : 0 ≤ most) (hε : 0 ≤ ε)
    (hdeg : o.card ≤ 1 ∨ o.card = 2 ∧ 1 - ε ≤ ∑ k ∈ o, y k) :
    ∑ k ∈ picked, t k ≤ budget + (1 + ε) * most := by
  have hty : ∀ k ∈ all, 0 ≤ t k * y k := fun k hk => mul_nonneg (ht k hk) (hy k hk)
  have hsplit : ∑ k ∈ picked, t k =
      ∑ k ∈ picked \ o, t k * y k + ∑ k ∈ picked ∩ o, t k := by
    have hsub : picked ∩ o ⊆ picked := Finset.inter_subset_left
    rw [← Finset.sum_sdiff hsub, Finset.sdiff_inter_self_left]
    congr 1
    refine Finset.sum_congr rfl fun k hk => ?_
    exact hset k (Finset.mem_sdiff.mp hk).1 (Finset.mem_sdiff.mp hk).2
  have hset' : ∑ k ∈ picked \ o, t k * y k ≤
      budget - ∑ k ∈ picked ∩ o, t k * y k := by
    have hd : Disjoint (picked \ o) (picked ∩ o) := by
      rw [Finset.disjoint_left]
      intro k hk hk'
      exact (Finset.mem_sdiff.mp hk).2 (Finset.mem_inter.mp hk').2
    have hu : picked \ o ∪ picked ∩ o ⊆ all := by
      rw [Finset.sdiff_union_inter]
      exact hp
    have := Finset.sum_le_sum_of_subset_of_nonneg hu fun k hk _ => hty k hk
    rw [Finset.sum_union hd] at this
    linarith
  have hslack := slack_le picked (fun k hk => hy k (ho hk)) hε hdeg
  have hopen : ∑ k ∈ picked ∩ o, t k - ∑ k ∈ picked ∩ o, t k * y k ≤ (1 + ε) * most := by
    rw [← Finset.sum_sub_distrib]
    calc ∑ k ∈ picked ∩ o, (t k - t k * y k)
        ≤ ∑ k ∈ picked ∩ o, (1 - y k) * most := by
          refine Finset.sum_le_sum fun k hk => ?_
          have h1 := hone k (Finset.mem_inter.mp hk).2
          have h2 := hm k (Finset.mem_inter.mp hk).1
          nlinarith [mul_le_mul_of_nonneg_left h2 (sub_nonneg.mpr h1)]
      _ = (∑ k ∈ picked ∩ o, (1 - y k)) * most := by rw [Finset.sum_mul]
      _ ≤ (1 + ε) * most := mul_le_mul_of_nonneg_right hslack h0
  linarith

variable {p : Assignment K} {m : Model K}

/-- Whichever jobs that are not off the machine at place `i` end up there, they do not overload
it. -/
def Light (p : Assignment K) (m : Model K) (i : Fin p.machines.length) : Prop :=
  ∀ (picked : Finset (Fin p.jobs.length)) (most : K),
    (∀ k ∈ picked, m.fixedAt (p.slot k i) ≠ some 0) → (∀ k ∈ picked, p.timeAt k i ≤ most) →
    0 ≤ most →
    ∑ k ∈ picked, p.timeAt k i ≤ p.budget p.machines[i] + (1 + p.tolerance.epsilon) * most

/-- What holds of a model whatever the times are. -/
structure Framed (p : Assignment K) (m : Model K) : Prop where
  grown : p.model.Grown m
  loaded : m.loaded = true
  rowCount : m.rows.length = p.jobs.length + p.machines.length
  integral : ∀ (c : Nat) v, m.fixedAt c = some v → v = 0 ∨ v = 1
  jobRows : ∀ (k : Fin p.jobs.length) r, m.rows[(k : Nat)]? = some r → r.relaxed = false

structure Kept (p : Assignment K) (m : Model K) : Prop extends Framed p m where
  fitting : ∀ k i, m.fixedAt (p.slot k i) = some 1 → p.timeAt k i ≤ p.budget p.machines[i] ∧
    0 < p.tolerance.epsilon ∧ p.tolerance.epsilon ≤ 1
  light : ∀ (i : Fin p.machines.length) r,
    m.rows[p.jobs.length + i]? = some r → r.relaxed = true → Light p m i

theorem fixedAt_model (p : Assignment K) (c : Nat) : p.model.fixedAt c = none := by
  simp only [Model.fixedAt, model, List.getElem?_map]
  cases p.pairs[c]? with
  | none => rfl
  | some e =>
    simp only [Option.map_some, Option.bind_some, column]
    split <;> rfl

theorem framed_model (p : Assignment K) : Framed p p.model := by
  refine ⟨.refl _, rfl, by simp [model], ?_, ?_⟩
  · intro c v h
    simp [fixedAt_model] at h
  · intro k r h
    obtain rfl := Option.some.inj ((jobRow_at k).symm.trans h)
    rfl

theorem kept_model (p : Assignment K) : Kept p p.model := by
  refine ⟨framed_model p, ?_, ?_⟩
  · intro k i h
    simp [fixedAt_model] at h
  · intro i r h hr
    obtain rfl := Option.some.inj ((machineRow_at i).symm.trans h)
    cases hr

theorem weigh_jobRow (k : Fin p.jobs.length) (x : List K) :
    weigh (p.jobRow k).coefs x = ∑ i, x.getD (p.slot k i) 0 := by
  simp [jobRow, slot, Function.comp_def, ← List.map_coe_finRange_eq_range, ← Fin.sum_univ_def]

theorem weigh_machineRow (i : Fin p.machines.length) (x : List K) :
    weigh (p.machineRow i p.machines[i]).coefs x =
      ∑ k, p.timeAt k i * x.getD (p.slot k i) 0 := by
  simp [machineRow, slot, timeAt, zipIdx_eq_map_finRange, Function.comp_def, ← Fin.sum_univ_def]

section Point

variable {x : List K} (h : Framed p m) (hx : m.Admits x)

include h hx

theorem Framed.getElem? (k : Fin p.jobs.length) (i : Fin p.machines.length) :
    x[p.slot k i]? = some (x.getD (p.slot k i) 0) := by
  have hl : p.slot k i < x.length := by
    rw [hx.length, h.grown.length]
    simpa [model] using slot_lt k i
  simp [hl]

theorem Framed.open_value {k : Fin p.jobs.length} {i : Fin p.machines.length}
    (ho : m.fixedAt (p.slot k i) = none) :
    0 ≤ x.getD (p.slot k i) 0 ∧
      (¬ p.timeAt k i ≤ p.budget p.machines[i] → x.getD (p.slot k i) 0 = 0) := by
  have hl : p.slot k i < m.columns.length := by
    rw [h.grown.length]
    simpa [model] using slot_lt k i
  have hc := List.getElem?_eq_getElem hl
  have hf : m.columns[p.slot k i].fixed = none := by simpa [Model.fixedAt, hc] using ho
  have ha := hx.columns _ _ _ hc (h.getElem? hx k i)
  obtain ⟨c₀, h₀, -, hb⟩ := h.grown.column hc
  obtain rfl := Option.some.inj ((column_at k i).symm.trans h₀)
  simp only [Column.Admits, hf, hb, column, timeAt] at ha ⊢
  split at ha
  · next hfit => exact ⟨ha, fun hn => absurd hfit hn⟩
  · exact ⟨le_of_eq (Eq.symm ha), fun _ => ha⟩

theorem Framed.nonneg (k : Fin p.jobs.length) (i : Fin p.machines.length) :
    0 ≤ x.getD (p.slot k i) 0 := by
  cases hf : m.fixedAt (p.slot k i) with
  | none => exact (h.open_value hx hf).1
  | some v =>
    rw [hx.fixed hf (h.getElem? hx k i)]
    rcases h.integral _ v hf with rfl | rfl
    · exact le_rfl
    · exact zero_le_one

theorem Framed.sum_job (k : Fin p.jobs.length) : ∑ i, x.getD (p.slot k i) 0 = 1 := by
  obtain ⟨r, hr, -⟩ := h.grown.rows _ _ (jobRow_at k)
  have hrow := h.grown.met hx (jobRow_at k) hr (h.jobRows k r hr)
  rw [weigh_jobRow] at hrow
  exact hrow

theorem Framed.le_one (k : Fin p.jobs.length) (i : Fin p.machines.length) :
    x.getD (p.slot k i) 0 ≤ 1 := by
  rw [← h.sum_job hx k]
  exact Finset.single_le_sum (f := fun i => x.getD (p.slot k i) 0)
    (fun i _ => h.nonneg hx k i) (Finset.mem_univ i)

theorem Framed.sum_machine {i : Fin p.machines.length} {r : Row K}
    (hr : m.rows[p.jobs.length + i]? = some r) (hk : r.relaxed = false) :
    ∑ k, p.timeAt k i * x.getD (p.slot k i) 0 ≤ p.budget p.machines[i] := by
  have hrow := h.grown.met hx (machineRow_at i) hr hk
  rw [weigh_machineRow] at hrow
  exact hrow

end Point

def openJobs (p : Assignment K) (m : Model K) (i : Fin p.machines.length) :
    Finset (Fin p.jobs.length) :=
  Finset.univ.filter fun k => m.counts (p.slot k i, p.timeAt k i)

theorem mem_openJobs {i : Fin p.machines.length} {k : Fin p.jobs.length} :
    k ∈ openJobs p m i ↔ m.counts (p.slot k i, p.timeAt k i) = true := by
  simp [openJobs]

theorem machineRow_coefs (i : Fin p.machines.length) :
    (p.machineRow i p.machines[i]).coefs =
      (List.finRange p.jobs.length).map fun k => (p.slot k i, p.timeAt k i) := by
  simp [machineRow, zipIdx_eq_map_finRange, Function.comp_def, slot, timeAt]

section Row

variable {i : Fin p.machines.length} {r : Row K} (h : Framed p m)
  (hr : m.rows[p.jobs.length + i]? = some r)

include h hr

theorem Framed.machine_coefs :
    r.coefs = (List.finRange p.jobs.length).map fun k => (p.slot k i, p.timeAt k i) := by
  rw [(h.grown.row (machineRow_at i) hr).2, machineRow_coefs]

theorem Framed.rowDegree : m.rowDegree (p.jobs.length + i) = .ok (openJobs p m i).card := by
  refine Model.rowDegree_eq_ok.mpr ⟨r, hr, ?_⟩
  rw [h.machine_coefs hr, List.filter_map, List.length_map, openJobs, ← length_finRange_filter]
  rfl

theorem Framed.rowSum_eq {s : Solution K} (hs : m.solution = some s) {v : K}
    (hv : m.rowSum (p.jobs.length + i) = .ok v) :
    v = ∑ k ∈ openJobs p m i, s.values.getD (p.slot k i) 0 := by
  obtain ⟨s', r', hs', hr', rfl⟩ := Model.rowSum_eq_ok hv
  obtain rfl := Option.some.inj (hs.symm.trans hs')
  obtain rfl := Option.some.inj (hr.symm.trans hr')
  rw [h.machine_coefs hr, List.filter_map, List.map_map, openJobs, ← sum_finRange_filter]
  rfl

end Row

theorem Framed.solution (h : Framed p m) (s : Option (Solution K)) :
    Framed p { m with solution := s } :=
  ⟨h.grown.solution s, h.loaded, h.rowCount, h.integral, h.jobRows⟩

theorem Framed.fix (h : Framed p m) {c : Nat} {v : K} (hv : v = 0 ∨ v = 1) {m' : Model K}
    (hf : Returns (Model.fixColumn c v) m () m') : Framed p m' := by
  obtain ⟨col, hc, -, rfl⟩ := Model.returns_fixColumn.mp hf
  refine ⟨h.grown.fix hc, h.loaded, h.rowCount, ?_, h.jobRows⟩
  intro c' w hw
  rw [Model.fixedAt_set hc] at hw
  split at hw
  · exact Option.some.inj hw ▸ hv
  · exact h.integral c' w hw

theorem Framed.relax (h : Framed p m) {row : Nat} {m' : Model K}
    (hm : p.isMachineRow row = true) (hf : Returns (Model.relaxRow row) m () m') :
    Framed p m' := by
  obtain ⟨r, hr, -, rfl⟩ := Model.returns_relaxRow.mp hf
  obtain ⟨i, rfl⟩ := exists_machine_row hm
  refine ⟨h.grown.relax hr, h.loaded, by simpa using h.rowCount, h.integral, fun k r' hr' => ?_⟩
  rw [List.getElem?_set_ne (by have := k.isLt; omega)] at hr'
  exact h.jobRows k r' hr'

/-- While columns are fixed, the open ones still have the values of the last solve. -/
structure InPass (p : Assignment K) (m : Model K) : Prop extends Kept p m where
  values : ∃ s, m.solution = some s ∧ ∀ k i x, m.fixedAt (p.slot k i) = none →
    s.values[p.slot k i]? = some x →
    0 ≤ x ∧ x ≤ 1 ∧ (¬ p.timeAt k i ≤ p.budget p.machines[i] → x = 0)

theorem Kept.inPass (h : Kept p m) (hs : m.Solved) : InPass p m := by
  obtain ⟨s, hs, hx⟩ := hs
  refine ⟨h, s, hs, fun k i x ho hv => ?_⟩
  obtain rfl := Option.some.inj ((h.getElem? hx k i).symm.trans hv)
  exact ⟨(h.open_value hx ho).1, h.le_one hx k i, (h.open_value hx ho).2⟩

theorem InPass.fix (h : InPass p m) {c : Nat} {v : K} {m' : Model K}
    (hf : Returns (Model.fixColumn c v) m () m') {x : K} (hx : m.columnValue c = .ok x)
    (hv : some v = if |x| < p.tolerance.epsilon then some 0
      else if |x - 1| < p.tolerance.epsilon then some 1 else none) : InPass p m' := by
  have h01 : v = 0 ∨ v = 1 := by split_ifs at hv <;> simp_all
  have hframed := h.toFramed.fix h01 hf
  obtain ⟨col, hc, hn, rfl⟩ := Model.returns_fixColumn.mp hf
  obtain ⟨hl, s, hs, hval⟩ := Model.columnValue_eq_ok.mp hx
  have hopen : m.fixedAt c = none := by simp [Model.fixedAt, hc, hn]
  have keep (c' : Nat) (w : K) (hw : (if c' = c then some v else m.fixedAt c') ≠ some w)
      (hw' : m.fixedAt c' = some w) : False := by
    split at hw
    · simp_all
    · exact hw hw'
  refine ⟨⟨hframed, ?_, ?_⟩, s, hs, ?_⟩
  · intro k i hw
    rw [Model.fixedAt_set hc] at hw
    split at hw
    · next heq =>
      subst heq
      obtain rfl := Option.some.inj hw
      obtain ⟨s', hs', hopenValue⟩ := h.values
      obtain rfl := Option.some.inj (hs.symm.trans hs')
      obtain ⟨h0, h1, hfit⟩ := hopenValue k i x hopen hval
      split_ifs at hv with hz ho
      · simp at hv
      · have hε : 0 < p.tolerance.epsilon := (abs_nonneg _).trans_lt ho
        rw [abs_of_nonneg h0, not_lt] at hz
        refine ⟨by_contra fun hn => ?_, hε, hz.trans h1⟩
        rw [hfit hn] at hz
        exact absurd hε (not_lt.mpr hz)
    · exact h.fitting k i hw
  · intro i r hr hk picked most hp
    refine h.light i r hr hk picked most fun k hkp hz => ?_
    exact keep _ 0 (by simpa [Model.fixedAt_set hc] using hp k hkp) hz
  · intro k i y ho hy
    obtain ⟨s', hs', hopenValue⟩ := h.values
    obtain rfl := Option.some.inj (hs.symm.trans hs')
    refine hopenValue k i y ?_ hy
    rw [Model.fixedAt_set hc] at ho
    split at ho
    · cases ho
    · exact ho

theorem returns_relaxable {s t : Run (Assignment K) K} {row : Nat} {b : Bool}
    (h : Returns (relaxable row) s b t) :
    s = t ∧ (b = true ↔ s.problem.isMachineRow row = true ∧ ∃ d, s.lp.rowDegree row = .ok d ∧
      (d ≤ 1 ∨ d = 2 ∧ ∃ v, s.lp.rowSum row = .ok v ∧ 1 - s.problem.tolerance.epsilon ≤ v)) := by
  simp only [relaxable, returns_bind, Action.returns_problem] at h
  obtain ⟨_, _, ⟨rfl, rfl⟩, h⟩ := h
  split at h
  · next hm =>
    obtain ⟨rfl, rfl⟩ := returns_pure.mp h
    replace hm : s.problem.isMachineRow row = false := by simpa using hm
    simp [hm]
  next hm =>
  simp only [returns_bind, returns_lift, Action.returns_model] at h
  obtain ⟨_, _, ⟨rfl, rfl⟩, d, _, ⟨hd, rfl⟩, h⟩ := h
  replace hm : s.problem.isMachineRow row = true := by simpa using hm
  simp only [hm, hd, Except.ok.injEq, exists_eq_left', true_and]
  split at h
  · next h1 =>
    obtain ⟨rfl, rfl⟩ := returns_pure.mp h
    simp [h1]
  next h1 =>
  split at h
  · next h2 =>
    simp only [returns_bind, returns_lift, returns_pure] at h
    obtain ⟨v, _, ⟨hv, rfl⟩, rfl, rfl⟩ := h
    simp [h2, hv]
  · next h2 =>
    obtain ⟨rfl, rfl⟩ := returns_pure.mp h
    simp [h1, h2]

/-- A row that may go leaves a machine that can no longer be overloaded. -/
theorem Kept.light_of_degree (h : Kept p m) (ht : ∀ k i, 0 ≤ p.timeAt k i)
    (hε : 0 ≤ p.tolerance.epsilon) {s : Solution K} (hs : m.solution = some s)
    (hx : m.Admits s.values) {i : Fin p.machines.length} {r : Row K} {d : Nat}
    (hr : m.rows[p.jobs.length + i]? = some r) (hk : r.relaxed = false)
    (hd : m.rowDegree (p.jobs.length + i) = .ok d)
    (hle : d ≤ 1 ∨ d = 2 ∧ ∃ v, m.rowSum (p.jobs.length + i) = .ok v ∧
      1 - p.tolerance.epsilon ≤ v) : Light p m i := by
  have hcard : (openJobs p m i).card = d := Except.ok.inj ((h.rowDegree hr).symm.trans hd)
  intro picked most hp hm h0
  refine load_le (y := fun k => s.values.getD (p.slot k i) 0) (o := openJobs p m i)
    (fun k _ => ht k i) (fun k _ => h.nonneg hx k i) (h.sum_machine hx hr hk)
    (Finset.subset_univ _) (Finset.subset_univ _) ?_ (fun k _ => h.le_one hx k i) hm h0 hε ?_
  · -- a job that does not count takes no time, or is on the machine already
    intro k hkp hko
    cases hf : m.fixedAt (p.slot k i) with
    | none =>
      have hlt : p.slot k i < m.columns.length := by
        rw [h.grown.length]
        simpa [model] using slot_lt k i
      have hz : p.timeAt k i = 0 := by
        by_contra hz
        exact hko (mem_openJobs.mpr (Model.counts_iff.mpr ⟨hz, hlt, hf⟩))
      rw [hz, zero_mul]
    | some v =>
      rcases h.integral _ v hf with rfl | rfl
      · exact absurd hf (hp k hkp)
      · rw [hx.fixed hf (h.getElem? hx k i), mul_one]
  · rcases hle with h1 | ⟨h2, v, hv, hge⟩
    · exact .inl (hcard.trans_le h1)
    · exact .inr ⟨hcard.trans h2, h.rowSum_eq hr hs hv ▸ hge⟩

theorem Kept.relax (h : Kept p m) (ht : ∀ k i, 0 ≤ p.timeAt k i)
    (hε : 0 ≤ p.tolerance.epsilon) (hs : m.Solved) {row d : Nat} {m' : Model K}
    (hm : p.isMachineRow row = true) (hd : m.rowDegree row = .ok d)
    (hle : d ≤ 1 ∨ d = 2 ∧ ∃ v, m.rowSum row = .ok v ∧ 1 - p.tolerance.epsilon ≤ v)
    (hf : Returns (Model.relaxRow row) m () m') : Kept p m' := by
  have hframed := h.toFramed.relax hm hf
  obtain ⟨r, hr, hk, rfl⟩ := Model.returns_relaxRow.mp hf
  obtain ⟨s, hs, hx⟩ := hs
  obtain ⟨i, rfl⟩ := exists_machine_row hm
  refine ⟨hframed, h.fitting, fun i' r' hr' hk' => ?_⟩
  by_cases hi : i' = i
  · subst hi
    exact h.light_of_degree ht hε hs hx hr hk hd hle
  · rw [List.getElem?_set_ne (by have := Fin.val_ne_of_ne hi; omega)] at hr'
    exact h.light i' r' hr' hk'

theorem Kept.solution (h : Kept p m) (s : Option (Solution K)) :
    Kept p { m with solution := s } :=
  ⟨h.toFramed.solution s, h.fitting, h.light⟩

theorem Kept.solve {solver : Solver K} (hsolver : solver.Sound) {m' : Model K} (h : Kept p m)
    (hs : Returns (Model.solve solver) m .optimal m') : Kept p m' ∧ m'.Solved := by
  refine ⟨?_, Model.solved_of_solve hsolver hs⟩
  obtain ⟨s, rfl, -⟩ := Model.returns_solve hs
  exact h.solution s

variable [Backend K]

theorem policies_keeps (p : Assignment K) (hsolver : (Backend.solver : Solver K).Sound)
    (ht : ∀ k i, 0 ≤ p.timeAt k i) (hε : 0 ≤ p.tolerance.epsilon) :
    Engine.Keeps (policies (K := K)) RoundRule.zeroThenOne.apply
      (fun q m => q = p ∧ Kept p m) (fun q m => q = p ∧ InPass p m)
      (fun q m => q = p ∧ Kept p m ∧ m.Solved) := by
  have solve {s t : Run (Assignment K) K} (h : s.problem = p ∧ Kept p s.lp)
      (hs : Returns Action.solveModel s .optimal t) :
      t.problem = p ∧ Kept p t.lp ∧ t.lp.Solved := by
    obtain ⟨hp, hm⟩ := Action.returns_solveModel hs
    exact ⟨hp.trans h.1, h.2.solve hsolver hm⟩
  refine ⟨solve, solve, ?_, ?_, ?_, ?_, ?_, ?_⟩
  · exact fun h => ⟨h.1, h.2.1.inPass h.2.2⟩
  · exact fun h => ⟨h.1, h.2.toKept⟩
  · intro s t j h
    obtain ⟨rfl, -⟩ := RoundRule.returns_zeroThenOne h
    exact ⟨rfl, rfl⟩
  · rintro s t j v m ⟨rfl, h⟩ hr hf
    obtain ⟨rfl, x, hx, hv⟩ := RoundRule.returns_zeroThenOne hr
    exact ⟨rfl, h.fix hf hx hv⟩
  · intro s t i h
    obtain ⟨rfl, -⟩ := returns_relaxable h
    exact ⟨rfl, rfl⟩
  · rintro s t i m ⟨rfl, hk, hs⟩ hr hf
    obtain ⟨rfl, h⟩ := returns_relaxable hr
    obtain ⟨hm, d, hd, hle⟩ := h.mp rfl
    refine ⟨rfl, hk.relax ht hε hs hm hd hle hf, ?_⟩
    obtain ⟨r, -, -, rfl⟩ := Model.returns_relaxRow.mp hf
    exact hs.relax _

end Assignment

end LPRounding
