import LPRounding.Proofs.Assignment.Invariant
import LPRounding.Proofs.LP.Trying

/-!
Generalised assignment: in every answer each job has one machine that has time for it, and no
machine is overloaded by more than its longest job.
-/

namespace LPRounding

namespace Assignment

/-- What a mapping says about a job. -/
def machineOf (result : List (Node × Node)) (j : Node) : Option Node :=
  (result.find? fun e => e.1 = j).map Prod.snd

section Load

variable {K : Type} [Scalar K] (p : Assignment K) (result : List (Node × Node)) (m : Node)

def jobsOn : List Node := p.jobs.filter fun j => machineOf result j = some m

/-- Total time of the jobs on a machine. -/
def load : K := Scalar.sum ((p.jobsOn result m).map fun j => p.time j m)

/-- Time of the longest job on a machine, zero if there is none. -/
def longest : K := Scalar.largest 0 ((p.jobsOn result m).map fun j => p.time j m)

end Load

theorem machineOf_give (result : List (Node × Node)) (j m k : Node) :
    machineOf (give j m result) k = if k = j then some m else machineOf result k := by
  induction result with
  | nil =>
    by_cases h : k = j
    · simp [machineOf, give, h]
    · simp [machineOf, give, h, Ne.symm h]
  | cons e rest ih =>
    obtain ⟨a, b⟩ := e
    unfold machineOf at ih ⊢
    by_cases ha : a = j
    · subst a
      by_cases h : k = j
      · simp [give, h]
      · simp [give, h, Ne.symm h]
    · by_cases h : a = k
      · subst a
        simp [give, ha]
      · simpa [give, ha, h] using ih

theorem keys_give (result : List (Node × Node)) (j m : Node) :
    (give j m result).map Prod.fst =
      if j ∈ result.map Prod.fst then result.map Prod.fst else result.map Prod.fst ++ [j] := by
  induction result with
  | nil => simp [give]
  | cons e rest ih =>
    obtain ⟨a, b⟩ := e
    by_cases ha : a = j
    · simp [give, ha]
    · have hj : ¬ j = a := Ne.symm ha
      simp only [give, ha, if_false, List.map_cons, ih, List.mem_cons, hj, false_or]
      split <;> simp

theorem nodup_give {result : List (Node × Node)} (h : (result.map Prod.fst).Nodup) (j m : Node) :
    ((give j m result).map Prod.fst).Nodup := by
  rw [keys_give]
  split
  · exact h
  · next hj =>
    rw [← List.concat_eq_append]
    exact h.concat hj

theorem machineOf_giveAll_of_not_mem {picks result : List (Node × Node)} {j : Node}
    (h : ∀ m, (j, m) ∉ picks) :
    machineOf (picks.foldl (fun r e => give e.1 e.2 r) result) j = machineOf result j := by
  induction picks generalizing result with
  | nil => rfl
  | cons e rest ih =>
    obtain ⟨a, b⟩ := e
    have hja : j ≠ a := by
      rintro rfl
      exact h b List.mem_cons_self
    rw [List.foldl_cons, ih fun m hm => h m (List.mem_cons_of_mem _ hm), machineOf_give,
      if_neg hja]

theorem machineOf_giveAll_of_mem {picks result : List (Node × Node)} {j m : Node}
    (h : (j, m) ∈ picks) (hu : ∀ m', (j, m') ∈ picks → m' = m) :
    machineOf (picks.foldl (fun r e => give e.1 e.2 r) result) j = some m := by
  induction picks generalizing result with
  | nil => cases h
  | cons e rest ih =>
    obtain ⟨a, b⟩ := e
    rw [List.foldl_cons]
    by_cases hr : (j, m) ∈ rest
    · exact ih hr fun m' hm' => hu m' (List.mem_cons_of_mem _ hm')
    · obtain ⟨rfl, rfl⟩ : j = a ∧ m = b := by simpa [hr] using h
      rw [machineOf_giveAll_of_not_mem, machineOf_give, if_pos rfl]
      intro m' hm'
      obtain rfl := hu m' (List.mem_cons_of_mem _ hm')
      exact hr hm'

theorem nodup_giveAll {picks result : List (Node × Node)} (h : (result.map Prod.fst).Nodup) :
    ((picks.foldl (fun r e => give e.1 e.2 r) result).map Prod.fst).Nodup := by
  induction picks generalizing result with
  | nil => exact h
  | cons e rest ih => exact ih (nodup_give h e.1 e.2)

set_option linter.unusedSectionVars false

variable {K : Type} [Field K] [LinearOrder K] [IsStrictOrderedRing K] [FloorRing K]
  {p : Assignment K} {m : Model K}

def picked (tol : Tolerance K) (x : List K) (entries : List ((Node × Node) × Nat)) :
    List (Node × Node) :=
  (entries.filter fun e => tol.equal (x.getD e.2 0) 1).map Prod.fst

theorem returns_assign {s t : Run (Assignment K) K} {c : Nat} {j k : Node} {x : Solution K}
    (hx : s.lp.solution = some x) (h : Returns (assign c j k) s () t) :
    t.lp = s.lp ∧ t.problem = { s.problem with
      result := if s.problem.tolerance.equal (x.values.getD c 0) 1 then
        give j k s.problem.result else s.problem.result } := by
  simp only [assign, returns_bind, returns_lift, returns_modify, Action.returns_model] at h
  obtain ⟨_, _, ⟨rfl, rfl⟩, v, _, ⟨hv, rfl⟩, rfl⟩ := h
  rw [← Model.eq_getD_of_columnValue hx hv]
  split
  · exact ⟨rfl, rfl⟩
  · exact ⟨rfl, rfl⟩

theorem returns_assignAll {s t : Run (Assignment K) K} {x : Solution K}
    {entries : List ((Node × Node) × Nat)} (hx : s.lp.solution = some x)
    (h : Returns (entries.forM fun ((j, k), c) => assign c j k) s () t) :
    t.problem.result = (picked s.problem.tolerance x.values entries).foldl
      (fun r e => give e.1 e.2 r) s.problem.result := by
  induction entries generalizing s with
  | nil =>
    obtain ⟨-, rfl⟩ := returns_pure.mp h
    rfl
  | cons e rest ih =>
    obtain ⟨⟨j, k⟩, c⟩ := e
    obtain ⟨u, hu, h⟩ := returns_forM_cons.mp h
    obtain ⟨hm, hp⟩ := returns_assign hx hu
    rw [ih (hm ▸ hx) h, hp, picked, picked, List.filter_cons]
    split <;> rfl

theorem returns_readAnswer {s t : Run (Assignment K) K} {x : Solution K}
    (hx : s.lp.solution = some x) (h : Returns readAnswer s () t) :
    t.problem.result = (picked s.problem.tolerance x.values s.problem.pairs.zipIdx).foldl
      (fun r e => give e.1 e.2 r) s.problem.result := by
  simp only [readAnswer, returns_bind, Action.returns_problem] at h
  obtain ⟨_, _, ⟨rfl, rfl⟩, h⟩ := h
  exact returns_assignAll hx h

section Settled

variable {x : List K} (h : Kept p m) (hx : m.Admits x) (hall : m.activeColumns = [])

include h hx hall

theorem Kept.value_eq (k : Fin p.jobs.length) (i : Fin p.machines.length) :
    ∃ v, m.fixedAt (p.slot k i) = some v ∧ x.getD (p.slot k i) 0 = v ∧ (v = 0 ∨ v = 1) := by
  have hl : p.slot k i < m.columns.length := by
    rw [h.grown.length]
    simpa [model] using slot_lt k i
  obtain ⟨v, hv⟩ := Model.fixedAt_of_noActive hall hl
  exact ⟨v, hv, hx.fixed hv (h.getElem? hx k i), h.integral _ v hv⟩

theorem Kept.exists_machine (k : Fin p.jobs.length) :
    ∃ i, m.fixedAt (p.slot k i) = some 1 ∧ ∀ i', m.fixedAt (p.slot k i') = some 1 → i' = i := by
  have hsum := h.sum_job hx k
  obtain ⟨i, hi⟩ : ∃ i, m.fixedAt (p.slot k i) = some 1 := by
    by_contra hn
    push Not at hn
    have hz : ∑ i, x.getD (p.slot k i) 0 = 0 := by
      refine Finset.sum_eq_zero fun i _ => ?_
      obtain ⟨v, hv, hxv, rfl | rfl⟩ := h.value_eq hx hall k i
      · exact hxv
      · exact absurd hv (hn i)
    rw [hz] at hsum
    exact zero_ne_one hsum
  refine ⟨i, hi, fun i' hi' => ?_⟩
  by_contra hne
  have hone {i} (hi : m.fixedAt (p.slot k i) = some 1) : x.getD (p.slot k i) 0 = 1 :=
    hx.fixed hi (h.getElem? hx k i)
  have hle := Finset.sum_le_sum_of_subset_of_nonneg (Finset.subset_univ {i', i})
    fun i _ _ => h.nonneg hx k i
  rw [Finset.sum_pair hne, hone hi, hone hi', hsum] at hle
  norm_num at hle

theorem Kept.mem_picked {j k : Node} :
    (j, k) ∈ picked p.tolerance x p.pairs.zipIdx ↔
      ∃ a b, j = p.jobs.get a ∧ k = p.machines.get b ∧ m.fixedAt (p.slot a b) = some 1 := by
  simp only [picked, List.mem_map, List.mem_filter, Prod.exists, Tolerance.equal_iff]
  constructor
  · rintro ⟨u, v, c, ⟨hc, hone⟩, heq⟩
    have hget := List.mk_mem_zipIdx_iff_getElem?.mp hc
    obtain ⟨a, b, rfl⟩ := exists_slot (List.getElem?_eq_some_iff.mp hget).1
    obtain ⟨rfl, rfl⟩ := Prod.mk.inj heq
    obtain ⟨rfl, rfl⟩ := Prod.mk.inj (Option.some.inj ((pairs_slot a b).symm.trans hget))
    refine ⟨a, b, rfl, rfl, ?_⟩
    obtain ⟨w, hw, hxw, rfl | rfl⟩ := h.value_eq hx hall a b
    · -- some column of the job is at one, so the tolerance is no larger than that
      obtain ⟨i, hi, -⟩ := h.exists_machine hx hall a
      have hε := (h.fitting a i hi).2.2
      rw [hxw] at hone
      norm_num at hone
      exact absurd hone (not_lt.mpr hε)
    · exact hw
  · rintro ⟨a, b, rfl, rfl, hf⟩
    refine ⟨_, _, p.slot a b, ⟨List.mk_mem_zipIdx_iff_getElem?.mpr (pairs_slot a b), ?_⟩, rfl⟩
    rw [hx.fixed hf (h.getElem? hx a b)]
    simpa using (h.fitting a b hf).2.1

theorem Kept.machineOf_picked (hjobs : p.jobs.Nodup) (result : List (Node × Node))
    (a : Fin p.jobs.length) :
    ∃ b, machineOf ((picked p.tolerance x p.pairs.zipIdx).foldl (fun r e => give e.1 e.2 r)
      result) (p.jobs.get a) = some (p.machines.get b) ∧ m.fixedAt (p.slot a b) = some 1 := by
  obtain ⟨b, hb, hu⟩ := h.exists_machine hx hall a
  refine ⟨b, machineOf_giveAll_of_mem ((h.mem_picked hx hall).mpr ⟨a, b, rfl, rfl, hb⟩) ?_, hb⟩
  intro k hk
  obtain ⟨a', b', hj, rfl, hf⟩ := (h.mem_picked hx hall).mp hk
  have ha : a = a' := hjobs.get_inj_iff.mp hj
  subst ha
  rw [hu b' hf]

theorem Kept.machineOf_strange {j : Node} (hj : j ∉ p.jobs) (result : List (Node × Node)) :
    machineOf ((picked p.tolerance x p.pairs.zipIdx).foldl (fun r e => give e.1 e.2 r) result) j =
      machineOf result j := by
  refine machineOf_giveAll_of_not_mem fun k hk => ?_
  obtain ⟨a, b, rfl, -, -⟩ := (h.mem_picked hx hall).mp hk
  exact hj (List.getElem_mem _)

end Settled

theorem load_eq_sum (p : Assignment K) (result : List (Node × Node))
    (i : Fin p.machines.length) :
    p.load result (p.machines.get i) =
      ∑ k with machineOf result (p.jobs.get k) = some (p.machines.get i), p.timeAt k i := by
  rw [load, jobsOn, Scalar.sum_eq, sum_map_filter, ← Fin.sum_univ_fun_getElem,
    Finset.sum_filter]
  simp [timeAt]

theorem time_le_longest {result : List (Node × Node)} {j k : Node} (hj : j ∈ p.jobs)
    (hk : machineOf result j = some k) : p.time j k ≤ p.longest result k := by
  have hon : j ∈ p.jobsOn result k := by simp [jobsOn, hj, hk]
  exact Scalar.le_largest (List.mem_map_of_mem (f := fun j => p.time j k) hon) 0

theorem longest_nonneg {result : List (Node × Node)} {k : Node}
    (ht : ∀ j ∈ p.jobs, 0 ≤ p.time j k) : 0 ≤ p.longest result k := by
  rcases List.mem_cons.mp (Scalar.largest_mem 0 ((p.jobsOn result k).map fun j => p.time j k))
    with h | h
  · exact h.ge
  · obtain ⟨j, hj, heq⟩ := List.mem_map.mp h
    rw [longest, ← heq]
    exact ht j (List.mem_of_mem_filter hj)

/-- Whether or not the row of a machine went, what is fixed at one does not overload it. -/
theorem Kept.load_le_budget (h : Kept p m) {x : List K} (hx : m.Admits x)
    (ht : ∀ j ∈ p.jobs, ∀ k ∈ p.machines, 0 ≤ p.time j k) (hε : 0 ≤ p.tolerance.epsilon)
    {result : List (Node × Node)} {i : Fin p.machines.length}
    (hp : ∀ k : Fin p.jobs.length, machineOf result (p.jobs.get k) = some (p.machines.get i) →
      m.fixedAt (p.slot k i) = some 1) :
    p.load result (p.machines.get i) ≤ p.budget (p.machines.get i) +
      (1 + p.tolerance.epsilon) * p.longest result (p.machines.get i) := by
  have h0 : 0 ≤ p.longest result (p.machines.get i) :=
    longest_nonneg fun j hj => ht j hj _ (List.getElem_mem _)
  have htime (k : Fin p.jobs.length) : 0 ≤ p.timeAt k i :=
    ht _ (List.getElem_mem _) _ (List.getElem_mem _)
  obtain ⟨r, hr, -, -⟩ := h.grown.rows _ _ (machineRow_at i)
  rw [load_eq_sum]
  cases hk : r.relaxed with
  | true =>
    refine h.light i r hr hk _ _ ?_ ?_ h0
    · intro k hkp
      rw [hp k (Finset.mem_filter.mp hkp).2]
      simp
    · intro k hkp
      exact time_le_longest (List.getElem_mem _) (Finset.mem_filter.mp hkp).2
  | false =>
    calc ∑ k with machineOf result (p.jobs.get k) = some (p.machines.get i), p.timeAt k i
        = ∑ k with machineOf result (p.jobs.get k) = some (p.machines.get i),
            p.timeAt k i * x.getD (p.slot k i) 0 := by
          refine Finset.sum_congr rfl fun k hkp => ?_
          have hf := hp k (Finset.mem_filter.mp hkp).2
          rw [hx.fixed hf (h.getElem? hx k i), mul_one]
      _ ≤ ∑ k, p.timeAt k i * x.getD (p.slot k i) 0 :=
          Finset.sum_le_sum_of_subset_of_nonneg (Finset.filter_subset _ _) fun k _ _ =>
            mul_nonneg (htime k) (h.nonneg hx k i)
      _ ≤ p.budget (p.machines.get i) := h.sum_machine hx hr hk
      _ ≤ _ := le_add_of_nonneg_right (mul_nonneg (by linarith) h0)

/-- Every answer gives each job one machine that has time for it, changes nothing else, and
overloads no machine by more than its longest job. -/
theorem answer_fits_machines [Backend K] (p : Assignment K)
    (hsolver : (Backend.solver : Solver K).Sound) (hjobs : p.jobs.Nodup)
    (hmachines : p.machines.Nodup) (ht : ∀ j ∈ p.jobs, ∀ k ∈ p.machines, 0 ≤ p.time j k)
    (hε : 0 ≤ p.tolerance.epsilon) {out : Outcome K} {t : Run (Assignment K) K}
    (h : Returns (Engine.solveProblem policies) { problem := p } out t)
    (ho : out.status = .optimal) :
    (∀ j ∈ p.jobs, ∃ k ∈ p.machines, machineOf t.problem.result j = some k ∧
      p.time j k ≤ p.budget k) ∧
    (∀ j, j ∉ p.jobs → machineOf t.problem.result j = machineOf p.result j) ∧
    ((p.result.map Prod.fst).Nodup → (t.problem.result.map Prod.fst).Nodup) ∧
    ∀ k ∈ p.machines, p.load t.problem.result k ≤
      p.budget k + (1 + p.tolerance.epsilon) * p.longest t.problem.result k := by
  have htime (k i) : 0 ≤ p.timeAt k i := ht _ (List.getElem_mem _) _ (List.getElem_mem _)
  obtain ⟨s, u, hc, hi, hrun⟩ := Engine.returns_solveProblem h
  obtain rfl : ({ problem := p } : Run (Assignment K) K) = s := (returns_pure.mp hc).2
  simp only [policies, build, returns_bind, Action.returns_problem, Action.returns_setModel] at hi
  obtain ⟨_, _, ⟨rfl, rfl⟩, rfl⟩ := hi
  obtain ⟨s, v, ⟨hq, hk, x, hx, hax⟩, hall, hread, hpv, -⟩ :=
    Engine.run_keeps (policies_keeps p hsolver htime hε) rfl rfl hrun ho ⟨rfl, kept_model p⟩
  have hres := returns_readAnswer hx hread
  rw [hq] at hres
  rw [hpv, hres]
  refine ⟨?_, fun j hj => hk.machineOf_strange hax hall hj p.result, nodup_giveAll, ?_⟩
  · intro j hj
    obtain ⟨a, ha, rfl⟩ := List.getElem_of_mem hj
    obtain ⟨b, hb, hf⟩ := hk.machineOf_picked hax hall hjobs p.result ⟨a, ha⟩
    exact ⟨_, List.getElem_mem _, hb, (hk.fitting _ b hf).1⟩
  · intro k hkm
    obtain ⟨i, hi, rfl⟩ := List.getElem_of_mem hkm
    refine hk.load_le_budget hax ht hε (i := ⟨i, hi⟩) fun a ha => ?_
    obtain ⟨b, hb, hf⟩ := hk.machineOf_picked hax hall hjobs p.result a
    have hbi : b = ⟨i, hi⟩ :=
      hmachines.get_inj_iff.mp (Option.some.inj (hb.symm.trans ha))
    exact hbi ▸ hf

def twins : Assignment ℚ where
  tolerance := ⟨1 / 10⟩
  machines := [.number 1, .number 2]
  jobs := [.number 3, .number 4]
  cost _ _ := 0
  time _ _ := 1
  budget _ := 1

@[reducible] def twinsBackend : Backend ℚ :=
  .trying [[1, 0, 1, 0], [1 / 2, 1 / 2, 1 / 2, 1 / 2]]
    (fun _ _ _ => { value := 0, net := fun _ _ => 0 }) 5

theorem twins_answer :
    let _ := twinsBackend
    ∃ (out : Outcome ℚ) (t : Run (Assignment ℚ) ℚ),
      Returns (Engine.solveProblem policies) { problem := twins } out t ∧
      out.status = .optimal ∧
      (∀ j ∈ twins.jobs, ∃ k ∈ twins.machines, machineOf t.problem.result j = some k ∧
        twins.time j k ≤ twins.budget k) ∧
      ∀ k ∈ twins.machines, twins.load t.problem.result k ≤
        twins.budget k + (1 + twins.tolerance.epsilon) * twins.longest t.problem.result k := by
  let _ := twinsBackend
  have hrun : solves (policies (K := ℚ)) twins = true := by decide +kernel
  obtain ⟨out, t, h, ho⟩ := exists_answer hrun
  have hs := answer_fits_machines twins (Solver.trying_sound _) (by decide) (by decide)
    (by decide +kernel) (by decide +kernel) h ho
  exact ⟨out, t, h, ho, hs.1, hs.2.2.2⟩

end Assignment

end LPRounding
