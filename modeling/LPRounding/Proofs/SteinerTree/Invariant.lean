import LPRounding.Proofs.Run.Dependent
import LPRounding.Proofs.SteinerTree.Component
import LPRounding.Problem.SteinerTree

/-!
What a run for a Steiner tree keeps: what was picked so far pays, at the first distances, for pairs
by which every terminal and every added vertex reaches a terminal that is left. The distances that
later components are priced with are shorter only by jumps along those pairs.
-/

namespace LPRounding.SteinerTree

set_option linter.unusedSectionVars false

variable {K S : Type} [Field K] [LinearOrder K] [IsStrictOrderedRing K] [FloorRing K]
  {p q q' : SteinerTree K S} {m₀ : Metric K}

/-- A problem before its run, whose terminals are at finite distances. -/
structure Ready (p : SteinerTree K S) (m₀ : Metric K) : Prop where
  distances : p.distances = .ok m₀
  vertices : p.vertices = p.terminals ++ p.steiner
  nodup : p.vertices.Nodup
  size : m₀.size = p.vertices.length
  finite : ∀ u ∈ p.terminals, ∀ v ∈ p.terminals, m₀.between p.place u v ≠ ⊤

theorem Ready.terminals_subset (h : Ready p m₀) : p.terminals ⊆ p.vertices :=
  h.vertices ▸ List.subset_append_left _ _

theorem Ready.steiner_subset (h : Ready p m₀) : p.steiner ⊆ p.vertices :=
  h.vertices ▸ List.subset_append_right _ _

theorem Ready.place_lt (h : Ready p m₀) {v : Node} (hv : v ∈ p.vertices) : p.place v < m₀.size :=
  h.size ▸ List.idxOf_lt_length_of_mem hv

def current (m₀ : Metric K) (q : SteinerTree K S) : Metric K := q.metric.getD m₀

/-- The problem `q` of a run that started with `p` has added the vertices `added` and paid for
`pairs`. -/
structure Bought (p : SteinerTree K S) (m₀ : Metric K) (added : List Node)
    (pairs : List (Node × Node)) (q : SteinerTree K S) : Prop where
  graph : q.graph = p.graph
  costName : q.costName = p.costName
  steiner : q.steiner = p.steiner
  vertices : q.vertices = p.vertices
  terminals : q.terminals.Sublist p.terminals
  sink : q.sink = ⟨p.sink.entries ++ added.map .vertex, p.sink.entries.length⟩
  nodup : added.Nodup
  inside : added ⊆ p.steiner
  ends : ∀ e ∈ pairs, e.1 ∈ p.terminals ++ added ∧ e.2 ∈ p.terminals ++ added
  paid : outlay (m₀.between p.place) pairs ≤ q.solutionCost
  reach : ∀ v ∈ p.terminals ++ added, ∃ t ∈ q.terminals, Joined pairs v t
  shortened : Metric.Shortened p.place p.vertices p.terminals pairs m₀ (current m₀ q)

def Offers (p : SteinerTree K S) (m₀ : Metric K) (q : SteinerTree K S) : Prop :=
  ∀ c ∈ q.components, c.Offered (current m₀ q) p.place q.terminals p.steiner

def Kept (p : SteinerTree K S) (m₀ : Metric K) (q : SteinerTree K S) : Prop :=
  (∃ added pairs, Bought p m₀ added pairs q) ∧ Offers p m₀ q

variable {added : List Node} {pairs : List (Node × Node)}

theorem bought_nothing {entries : List Choice} (hsink : p.sink = .ofList entries)
    (hmetric : p.metric = none) (hcost : p.solutionCost = 0) : Bought p m₀ [] [] p := by
  refine ⟨rfl, rfl, rfl, rfl, .refl _, by simp [hsink, Sink.ofList], .nil, List.nil_subset _,
    by simp, by simp [hcost], fun v hv => ⟨v, by simpa using hv, .refl⟩, ?_⟩
  rw [current, hmetric]
  exact Metric.shortened_refl m₀

theorem Bought.place (h : Bought p m₀ added pairs q) : q.place = p.place := by
  funext v
  rw [SteinerTree.place, SteinerTree.place, h.vertices]

theorem Bought.frame (h : Bought p m₀ added pairs q) {metric : Option (Metric K)}
    (hm : metric.getD m₀ = current m₀ q) (components : List (Component K))
    (oracle : Oracle K S Node (Network Site K)) (dice : S) :
    Bought p m₀ added pairs { q with metric, components, oracle, dice } :=
  ⟨h.graph, h.costName, h.steiner, h.vertices, h.terminals, h.sink, h.nodup, h.inside, h.ends,
    h.paid, h.reach, by rw [current, hm]; exact h.shortened⟩

theorem Kept.search {o : Oracle K S Node (Network Site K)} (h : Kept p m₀ q) :
    Kept p m₀ (home.set q o) := by
  obtain ⟨⟨added, pairs, h⟩, ho⟩ := h
  exact ⟨⟨added, pairs, h.frame rfl _ _ _⟩, ho⟩

theorem Bought.finite (h : Bought p m₀ added pairs q) (hp : Ready p m₀) :
    ∀ u ∈ q.terminals, ∀ v ∈ q.terminals, (current m₀ q).between p.place u v ≠ ⊤ := by
  intro u hu v hv
  have hu := h.terminals.subset hu
  have hv := h.terminals.subset hv
  have hle := h.shortened.le u (hp.terminals_subset hu) v (hp.terminals_subset hv)
  exact ne_top_of_le_ne_top (hp.finite u hu v hv) hle

theorem Bought.of_generate (h : Bought p m₀ added pairs q) (hp : Ready p m₀)
    (hq : q.generate = .ok q') : q' = { q with components := [] } ∨
      ∃ cs, Component.all q.tolerance (current m₀ q) q.place q.terminals q.steiner q.limit =
        .ok cs ∧ q' = { q with metric := some (current m₀ q), components := cs } := by
  unfold SteinerTree.generate at hq
  split at hq
  · exact .inl (Except.ok.inj hq).symm
  · refine .inr ?_
    have hpriced {m : Metric K} (hm : current m₀ q = m)
        (hq : (Component.all q.tolerance m q.place q.terminals q.steiner q.limit >>= fun cs =>
          .ok { q with metric := some m, components := cs }) = .ok q') :
        ∃ cs, Component.all q.tolerance (current m₀ q) q.place q.terminals q.steiner q.limit =
          .ok cs ∧ q' = { q with metric := some (current m₀ q), components := cs } := by
      obtain ⟨cs, hcs, hq⟩ := ok_bind_iff.mp hq
      exact ⟨cs, hm ▸ hcs, hm ▸ (Except.ok.inj hq).symm⟩
    cases hmetric : q.metric with
    | some m =>
      rw [hmetric] at hq
      exact hpriced (by rw [current, hmetric, Option.getD_some]) hq
    | none =>
      have hsame : q.distances = p.distances := by
        simp only [SteinerTree.distances, h.graph, h.costName, h.vertices]
      rw [hmetric] at hq
      simp only [hsame, hp.distances] at hq
      exact hpriced (by rw [current, hmetric, Option.getD_none]) hq

theorem Bought.generate (h : Bought p m₀ added pairs q) (hp : Ready p m₀)
    (hq : q.generate = .ok q') : Bought p m₀ added pairs q' ∧ Offers p m₀ q' := by
  rcases h.of_generate hp hq with rfl | ⟨cs, hcs, rfl⟩
  · exact ⟨h.frame rfl _ _ _, by simp [Offers]⟩
  · refine ⟨h.frame (by rfl) _ _ _, fun c hc => ?_⟩
    rw [h.place, h.steiner] at hcs
    have hoffered := Component.offered_of_all (h.finite hp) hcs hc
    exact { hoffered with steiner := List.Subset.trans hoffered.steiner Component.free_subset }

theorem foldl_addVertex (vs : List Node) {s : Sink} {entries : List Choice} {added : List Node}
    (hs : s = ⟨entries ++ added.map .vertex, entries.length⟩) :
    vs.foldl addVertex s = ⟨entries ++ (extend added vs).map .vertex, entries.length⟩ := by
  induction vs generalizing s added with
  | nil => exact hs
  | cons v vs ih =>
    have hmem : .vertex v ∈ s.added ↔ v ∈ added := by
      simp [hs, Sink.added]
    rw [List.foldl_cons, extend]
    split
    · next hv => rw [addVertex, if_pos (hmem.mpr hv), ih hs]
    · next hv =>
      rw [addVertex, if_neg (hmem.not.mpr hv)]
      exact ih (by simp [hs, Sink.push])

theorem Bought.exists_purchase {c : Component K} (h : Bought p m₀ added pairs q) (hp : Ready p m₀)
    (hc : c.Offered (current m₀ q) p.place q.terminals p.steiner) :
    ∃ more, Connected c.vertices (more ++ pairs) ∧
      outlay (m₀.between p.place) more ≤ c.cost ∧
      ∀ e ∈ more, e.1 ∈ p.terminals ++ extend added c.steiner ∧
        e.2 ∈ p.terminals ++ extend added c.steiner := by
  obtain ⟨es, hconn, hends, hcost⟩ := hc.tree
  have hin {v : Node} (hv : v ∈ c.vertices) : v ∈ p.terminals ++ extend added c.steiner := by
    rw [Component.vertices] at hv
    rcases List.mem_append.mp hv with hv | hv
    · exact List.mem_append_left _ (h.terminals.subset (hc.terminals v hv))
    · exact List.mem_append_right _ (mem_extend.mpr (.inr hv))
  have hvs {v : Node} (hv : v ∈ c.vertices) : v ∈ p.vertices := by
    rw [Component.vertices] at hv
    rcases List.mem_append.mp hv with hv | hv
    · exact hp.terminals_subset (h.terminals.subset (hc.terminals v hv))
    · exact hp.steiner_subset (hc.steiner hv)
  obtain ⟨more, hjoin, hpaid, hmore⟩ := exists_payment (List.subset_append_left p.terminals _)
    (fun e he => ⟨hin (hends e he).1, hin (hends e he).2⟩)
    fun e he => h.shortened.payable _ (hvs (hends e he).1) _ (hvs (hends e he).2)
  refine ⟨more, fun u hu v hv => (hconn u hu v hv).of_adjacent fun a b hab => ?_,
    hpaid.trans hcost, hmore⟩
  rcases hab with hm | hm
  · exact hjoin _ hm
  · exact (hjoin _ hm).symm

theorem Bought.take {c : Component K} (h : Bought p m₀ added pairs q) (hp : Ready p m₀)
    (hc : c.Offered (current m₀ q) p.place q.terminals p.steiner) :
    ∃ more, Bought p m₀ (extend added c.steiner) (more ++ pairs) (take c q) ∧
      Connected c.vertices (more ++ pairs) := by
  obtain ⟨more, hconn, hpaid, hmore⟩ := h.exists_purchase hp hc
  have hsub : pairs ⊆ more ++ pairs := List.subset_append_right _ _
  have hold : p.terminals ++ added ⊆ p.terminals ++ extend added c.steiner :=
    List.append_subset.mpr ⟨List.subset_append_left _ _, fun v hv =>
      List.mem_append_right _ (mem_extend.mpr (.inl hv))⟩
  refine ⟨more, ⟨h.graph, h.costName, h.steiner, h.vertices, h.terminals,
    foldl_addVertex c.steiner h.sink, nodup_extend h.nodup, ?_, ?_, ?_, ?_,
    h.shortened.mono hsub⟩, hconn⟩
  · intro v hv
    exact (mem_extend.mp hv).elim (h.inside ·) (hc.steiner ·)
  · intro e he
    rcases List.mem_append.mp he with he | he
    · exact hmore e he
    · exact ⟨hold (h.ends e he).1, hold (h.ends e he).2⟩
  · calc outlay (m₀.between p.place) (more ++ pairs)
        = outlay (m₀.between p.place) pairs + outlay (m₀.between p.place) more := by
          rw [outlay_append, add_comm]
      _ ≤ (q.solutionCost : WithTop K) + c.cost := add_le_add h.paid hpaid
      _ = (q.solutionCost + c.cost : K) := (WithTop.coe_add _ _).symm
  · intro v hv
    have hreach (hv : v ∈ p.terminals ++ added) :
        ∃ t ∈ q.terminals, Joined (more ++ pairs) v t := by
      obtain ⟨t, ht, hvt⟩ := h.reach v hv
      exact ⟨t, ht, hvt.mono hsub⟩
    rcases List.mem_append.mp hv with hv | hv
    · exact hreach (List.mem_append_left _ hv)
    rcases mem_extend.mp hv with hv | hv
    · exact hreach (List.mem_append_right _ hv)
    · have hsink : c.sink ∈ c.vertices := List.mem_append_left _ List.mem_cons_self
      exact ⟨c.sink, hc.terminals _ List.mem_cons_self,
        hconn _ (List.mem_append_right _ hv) _ hsink⟩

theorem returns_merge {sink source : Node} (h : Returns (merge sink source) q () q') :
    ∃ m, q.metric = some m ∧
      q' = { q with metric := some (m.contract (q.place sink) (q.place source)) } := by
  simp only [merge, returns_bind, returns_get] at h
  obtain ⟨_, _, ⟨rfl, rfl⟩, h⟩ := h
  split at h
  · simp at h
  split at h
  · simp at h
  split at h
  · simp at h
  · next m hm => exact ⟨m, hm, (returns_set.mp h).symm⟩

theorem returns_retire {source : Node} (h : Returns (retire source) q () q') :
    source ∈ q.terminals ∧ q' = { q with terminals := q.terminals.erase source } := by
  simp only [retire, returns_bind, returns_get] at h
  obtain ⟨_, _, ⟨rfl, rfl⟩, h⟩ := h
  split at h
  · simp at h
  · next hs => exact ⟨not_not.mp hs, (returns_set.mp h).symm⟩

theorem Bought.merge {sink source : Node} {r : SteinerTree K S}
    (h : Bought p m₀ added pairs q) (hp : Ready p m₀) (hsink : sink ∈ q.terminals)
    (hne : sink ≠ source) (hj : Joined pairs sink source)
    (hm : Returns (merge sink source) q () r) (hr : Returns (retire source) r () q') :
    Bought p m₀ added pairs q' ∧ sink ∈ q'.terminals := by
  obtain ⟨m, hmetric, rfl⟩ := returns_merge hm
  obtain ⟨hsource, rfl⟩ := returns_retire hr
  have hstay {t : Node} (ht : t ∈ q.terminals) (hts : t ≠ source) : t ∈ q.terminals.erase source :=
    (List.mem_erase_of_ne hts).mpr ht
  have hcurrent : current m₀ q = m := by rw [current, hmetric, Option.getD_some]
  have hshort := h.shortened.contract hp.terminals_subset (fun v hv => hp.place_lt hv)
    (h.terminals.subset hsink) (h.terminals.subset hsource) hj
  rw [hcurrent, ← h.place] at hshort
  refine ⟨⟨h.graph, h.costName, h.steiner, h.vertices, (List.erase_sublist).trans h.terminals,
    h.sink, h.nodup, h.inside, h.ends, h.paid, fun v hv => ?_, ?_⟩, hstay hsink hne⟩
  · obtain ⟨t, ht, hvt⟩ := h.reach v hv
    by_cases hts : t = source
    · exact ⟨sink, hstay hsink hne, (hts ▸ hvt).trans hj.symm⟩
    · exact ⟨t, hstay ht hts, hvt⟩
  · rw [← h.place]
    exact hshort

theorem Bought.mergeAll {sink : Node} {sources : List Node} (h : Bought p m₀ added pairs q)
    (hp : Ready p m₀) (hsink : sink ∈ q.terminals) (hne : sink ∉ sources)
    (hj : ∀ v ∈ sources, Joined pairs sink v)
    (hr : Returns (sources.forM fun v => do SteinerTree.merge sink v; retire v) q () q') :
    Bought p m₀ added pairs q' := by
  induction sources generalizing q with
  | nil =>
    obtain ⟨-, rfl⟩ := returns_pure.mp hr
    exact h
  | cons v vs ih =>
    obtain ⟨hv, hvs⟩ := not_or.mp (List.mem_cons.not.mp hne)
    obtain ⟨w, hw, hr⟩ := returns_forM_cons.mp hr
    obtain ⟨_, r, hm, hw⟩ := returns_bind.mp hw
    obtain ⟨h, hsink⟩ := h.merge hp hsink hv (hj v List.mem_cons_self) hm hw
    exact ih h hsink hvs (fun u hu => hj u (List.mem_cons_of_mem _ hu)) hr

theorem returns_accept {c : Component K} {s t : Run (SteinerTree K S) K}
    (hr : Returns (accept c) s () t) :
    ∃ r, Returns (c.sources.forM fun v => do SteinerTree.merge c.sink v; retire v)
        (SteinerTree.take c s.problem) () r ∧ t = { s with problem := { r with components := [] } } := by
  simp only [SteinerTree.accept, contract, returns_bind, returns_modify,
    Action.returns_onProblem] at hr
  obtain ⟨_, _, rfl, _, ⟨_, r, hr, rfl⟩, rfl⟩ := hr
  exact ⟨r, hr, rfl⟩

/-- After a component was taken all is paid for, and no component is at hand. -/
theorem Bought.accept {c : Component K} {s t : Run (SteinerTree K S) K}
    (h : Bought p m₀ added pairs s.problem) (hp : Ready p m₀)
    (hc : c.Offered (current m₀ s.problem) p.place s.problem.terminals p.steiner)
    (hr : Returns (accept c) s () t) : Kept p m₀ t.problem := by
  obtain ⟨q, hq, rfl⟩ := returns_accept hr
  obtain ⟨more, h, hconn⟩ := h.take hp hc
  have hsink : c.sink ∈ c.vertices := List.mem_append_left _ List.mem_cons_self
  have hall := h.mergeAll hp (hc.terminals _ List.mem_cons_self) hc.sink (fun v hv =>
    hconn _ hsink _ (List.mem_append_left _ (List.mem_cons_of_mem _ hv))) hq
  exact ⟨⟨_, _, hall.frame rfl _ _ _⟩, by simp [Offers]⟩

theorem returns_pick [Dice S K] {s t : Run (SteinerTree K S) K} (hr : Returns pick s () t) :
    ∃ c dice trace, c ∈ s.problem.components ∧
      Returns (accept c) { s with problem := { s.problem with dice }, trace } () t := by
  simp only [SteinerTree.pick, returns_bind, Action.returns_problem, Action.returns_model,
    returns_lift, Action.returns_onProblem] at hr
  obtain ⟨_, _, ⟨rfl, rfl⟩, _, _, ⟨rfl, rfl⟩, values, _, ⟨-, rfl⟩, i, _, ⟨r, hi, rfl⟩, hr⟩ := hr
  obtain ⟨dice, rfl⟩ : ∃ dice, r = { s.problem with dice } := by
    simp only [select, returns_bind, returns_get, returns_lift, returns_set, returns_pure] at hi
    obtain ⟨_, _, ⟨rfl, rfl⟩, ⟨_, dice⟩, _, ⟨-, rfl⟩, _, _, rfl, -, rfl⟩ := hi
    exact ⟨dice, rfl⟩
  split at hr
  · simp at hr
  · next c hc =>
    simp only [returns_bind, Action.returns_note] at hr
    obtain ⟨_, _, rfl, hr⟩ := hr
    exact ⟨c, dice, _, List.mem_of_getElem? hc, hr⟩

theorem Kept.pick [Dice S K] {s t : Run (SteinerTree K S) K} (h : Kept p m₀ s.problem)
    (hp : Ready p m₀) (hr : Returns pick s () t) : Kept p m₀ t.problem := by
  obtain ⟨⟨added, pairs, h⟩, ho⟩ := h
  obtain ⟨c, dice, _, hc, hr⟩ := returns_pick hr
  exact Bought.accept (by exact h.frame rfl _ _ dice) hp (by exact ho c hc) hr

theorem Kept.build {s t : Run (SteinerTree K S) K} (h : Kept p m₀ s.problem) (hp : Ready p m₀)
    (hr : Returns build s () t) : Kept p m₀ t.problem := by
  obtain ⟨⟨added, pairs, h⟩, -⟩ := h
  simp only [SteinerTree.build, returns_bind, Action.returns_problem, returns_lift,
    returns_modify] at hr
  obtain ⟨_, _, ⟨rfl, rfl⟩, q, _, ⟨hq, rfl⟩, rfl⟩ := hr
  obtain ⟨h, ho⟩ := h.generate hp hq
  exact ⟨⟨added, pairs, h⟩, ho⟩

theorem policies_carries [Backend K] [Dice S K] (hp : Ready p m₀) :
    Engine.Carries (policies (K := K) (S := S)) pick (Kept p m₀) := by
  have hgenerating {s t : Run (SteinerTree K S) K} {st : Status} (h : Kept p m₀ s.problem)
      (hr : Returns SolveRule.generating.apply s st t) : Kept p m₀ t.problem :=
    Oracle.generating_problem (h := home) (k := checker) rfl rfl (Kept p m₀)
      (fun _ _ => Kept.search) h hr
  refine ⟨hgenerating, hgenerating, fun h hr => h.pick hp hr, fun h hr => h.build hp hr, ?_⟩
  intro s t b hr
  simp only [policies, returns_bind, Action.returns_problem, returns_pure] at hr
  obtain ⟨_, _, ⟨rfl, rfl⟩, -, rfl⟩ := hr
  rfl

end LPRounding.SteinerTree
