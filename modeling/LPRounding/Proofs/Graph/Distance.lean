import LPRounding.Proofs.Graph.Edges
import LPRounding.Proofs.Graph.Reach
import LPRounding.Graph.Metric

/-!
Shortest paths. A matrix is closed when no detour through a vertex is shorter than the entry itself;
allowing paths through one vertex after the other closes it, and then its entries are the costs of
cheapest walks.
-/

namespace LPRounding

set_option linter.unusedSectionVars false

variable {K : Type} [Field K] [LinearOrder K] [IsStrictOrderedRing K] [FloorRing K]

def Link.cost (l : Link K) (field : String) : K := (l.attrs.value? field).getD 1

/-- A walk along links, with what they cost together. -/
inductive Walk (g : Graph K) (field : String) (u : Node) : Node → K → Prop where
  | nil : Walk g field u u 0
  | step {v w : Node} {c : K} {l : Link K} : Walk g field u v c → l ∈ g.links →
      l.joins v w = true → Walk g field u w (c + l.cost field)

/-- The cost of a cheapest walk. -/
def IsDistance (g : Graph K) (field : String) (u v : Node) (d : K) : Prop :=
  Walk g field u v d ∧ ∀ c, Walk g field u v c → d ≤ c

section Walks

variable {g : Graph K} {field : String} {u v w : Node} {a b : K}

theorem Walk.trans (h : Walk g field u v a) (h' : Walk g field v w b) :
    Walk g field u w (a + b) := by
  induction h' with
  | nil => rwa [add_zero]
  | step _ hl hj ih => exact (add_assoc a _ _).symm ▸ ih.step hl hj

theorem Walk.nonneg (hcost : ∀ l ∈ g.links, 0 ≤ l.cost field) (h : Walk g field u v a) : 0 ≤ a := by
  induction h with
  | nil => exact le_rfl
  | step _ hl _ ih => exact add_nonneg ih (hcost _ hl)

theorem IsDistance.nonneg (h : IsDistance g field u v a) (hcost : ∀ l ∈ g.links, 0 ≤ l.cost field) :
    0 ≤ a :=
  h.1.nonneg hcost

theorem Graph.Valid.exists_walk (hg : g.Valid) (h : Joined g.pairs u v) :
    ∃ c, Walk g field u v c := by
  induction h with
  | refl => exact ⟨0, .nil⟩
  | tail _ hab ih =>
    obtain ⟨c, hc⟩ := ih
    obtain ⟨l, hl, hj⟩ := hg.adjacent_pairs.mp hab
    exact ⟨_, hc.step hl hj⟩

end Walks

namespace Distance

/-- A distance as a number, infinite where there is no path. -/
def far : Distance K → WithTop K
  | some a => a
  | none => ⊤

@[simp] theorem far_some (a : K) : far (some a) = a := rfl

@[simp] theorem far_none : far (none : Distance K) = ⊤ := rfl

theorem far_add (a b : Distance K) : (a.add b).far = a.far + b.far := by
  cases a <;> cases b <;> simp [add, past, Scalar.isFinite]

theorem far_smaller (a b : Distance K) : (a.smaller b).far = min a.far b.far := by
  cases a with
  | none => cases b <;> simp [smaller]
  | some a =>
    cases b with
    | none => simp [smaller]
    | some b =>
      rcases lt_or_ge b a with h | h
      · simp [smaller, h, h.le]
      · simp [smaller, not_lt.mpr h, h, Scalar.isUndefined]

end Distance

namespace Metric

def far (m : Metric K) (i j : Nat) : WithTop K := (m.dist i j).far

variable {m m' : Metric K} {i j k n : Nat}

@[simp] theorem size_tabulate (f : Nat → Nat → Distance K) : (tabulate n f).size = n := by
  simp [tabulate, size]

theorem far_tabulate (f : Nat → Nat → Distance K) (hi : i < n) (hj : j < n) :
    (tabulate n f).far i j = (f i j).far := by
  simp [far, dist, tabulate, hi, hj]

theorem far_through (hi : i < m.size) (hj : j < m.size) :
    (m.through k).far i j = min (m.far i j) (m.far i k + m.far k j) := by
  rw [through, far_tabulate _ hi hj, Distance.far_smaller, Distance.far_add, add_comm]
  rfl

theorem far_contract {s e : Nat} (hi : i < m.size) (hj : j < m.size) :
    (m.contract s e).far i j =
      min (m.far i j) (min (m.far i s + m.far e j) (m.far i e + m.far s j)) := by
  rw [contract, far_tabulate _ hi hj]
  simp only [Distance.far_smaller, Distance.far_add]
  rfl

theorem far_restrict (hi : i < n) (hj : j < n) : (m.restrict n).far i j = m.far i j :=
  far_tabulate _ hi hj

/-- What became of a matrix once paths may pass through its first vertices. -/
structure Closing (m₀ m : Metric K) (done : Nat) : Prop where
  size : m.size = m₀.size
  le : ∀ i < m₀.size, ∀ j < m₀.size, m.far i j ≤ m₀.far i j
  nonneg : ∀ i < m₀.size, ∀ j < m₀.size, 0 ≤ m.far i j
  closed : ∀ k < done, ∀ i < m₀.size, ∀ j < m₀.size, m.far i j ≤ m.far i k + m.far k j

theorem Closing.through {m₀ : Metric K} (h : Closing m₀ m k) (hk : k < m₀.size) :
    Closing m₀ (m.through k) (k + 1) := by
  have hfar {i j : Nat} (hi : i < m₀.size) (hj : j < m₀.size) :
      (m.through k).far i j = min (m.far i j) (m.far i k + m.far k j) :=
    far_through (h.size ▸ hi) (h.size ▸ hj)
  have hself {i : Nat} (hi : i < m₀.size) : (m.through k).far i k = m.far i k := by
    rw [hfar hi hk, min_eq_left]
    exact le_add_of_nonneg_right (h.nonneg k hk k hk)
  have hself' {j : Nat} (hj : j < m₀.size) : (m.through k).far k j = m.far k j := by
    rw [hfar hk hj, min_eq_left]
    exact le_add_of_nonneg_left (h.nonneg k hk k hk)
  refine ⟨?_, fun i hi j hj => ?_, fun i hi j hj => ?_, fun l hl i hi j hj => ?_⟩
  · rw [Metric.through, size_tabulate, h.size]
  · rw [hfar hi hj]
    exact (min_le_left _ _).trans (h.le i hi j hj)
  · rw [hfar hi hj]
    exact le_min (h.nonneg i hi j hj) (add_nonneg (h.nonneg i hi k hk) (h.nonneg k hk j hj))
  · rcases Nat.lt_succ_iff_lt_or_eq.mp hl with hlk | rfl
    · -- a detour through `l` by way of `k` is no shorter than one through `k` alone
      have hl : l < m₀.size := hlk.trans hk
      have hvia {i j : Nat} (hi : i < m₀.size) (hj : j < m₀.size) :
          m.far i j ≤ m.far i l + m.far l j := h.closed l hlk i hi j hj
      have hback : 0 ≤ m.far k l + m.far l k := add_nonneg (h.nonneg k hk l hl) (h.nonneg l hl k hk)
      rw [hfar hi hj, hfar hi hl, hfar hl hj]
      rcases min_choice (m.far i l) (m.far i k + m.far k l) with ha | ha <;>
        rcases min_choice (m.far l j) (m.far l k + m.far k j) with hb | hb <;> rw [ha, hb]
      · exact (min_le_left _ _).trans (hvia hi hj)
      · refine (min_le_right _ _).trans ?_
        rw [← add_assoc]
        exact add_le_add_left (hvia hi hk) _
      · refine (min_le_right _ _).trans ?_
        rw [add_assoc]
        exact add_le_add_right (hvia hk hj) _
      · refine (min_le_right _ _).trans ?_
        calc m.far i k + m.far k j
            ≤ m.far i k + (m.far k l + m.far l k) + m.far k j :=
              add_le_add_left (le_add_of_nonneg_right hback) _
          _ = m.far i k + m.far k l + (m.far l k + m.far k j) := by
              rw [← add_assoc, add_assoc]
    · rw [hself hi, hself' hj, hfar hi hj]
      exact min_le_right _ _

theorem closing_close (h : ∀ i < m.size, ∀ j < m.size, 0 ≤ m.far i j) :
    Closing m m.close m.size := by
  have hall (n : Nat) (hn : n ≤ m.size) : Closing m ((List.range n).foldl Metric.through m) n := by
    induction n with
    | zero => exact ⟨rfl, fun _ _ _ _ => le_rfl, h, fun k hk => absurd hk (Nat.not_lt_zero k)⟩
    | succ n ih =>
      rw [List.range_succ, List.foldl_append]
      exact (ih (Nat.le_of_succ_le hn)).through hn
  exact hall m.size le_rfl

theorem close_induction {R : Nat → Nat → K → Prop}
    (htrans : ∀ i j k a b, R i k a → R k j b → R i j (a + b))
    (h : ∀ i < m.size, ∀ j < m.size, ∀ d : K, m.far i j = d → R i j d) :
    ∀ i < m.size, ∀ j < m.size, ∀ d : K, m.close.far i j = d → R i j d := by
  have hall (n : Nat) (hn : n ≤ m.size) :
      ((List.range n).foldl Metric.through m).size = m.size ∧
      ∀ i < m.size, ∀ j < m.size, ∀ d : K,
        ((List.range n).foldl Metric.through m).far i j = d → R i j d := by
    induction n with
    | zero => exact ⟨rfl, h⟩
    | succ n ih =>
      obtain ⟨hsize, hR⟩ := ih (Nat.le_of_succ_le hn)
      rw [List.range_succ, List.foldl_append, List.foldl_cons, List.foldl_nil]
      refine ⟨by rw [Metric.through, size_tabulate, hsize], fun i hi j hj d hd => ?_⟩
      rw [far_through (hsize.symm ▸ hi) (hsize.symm ▸ hj)] at hd
      rcases min_choice (((List.range n).foldl Metric.through m).far i j)
          (((List.range n).foldl Metric.through m).far i n +
            ((List.range n).foldl Metric.through m).far n j) with hm | hm <;> rw [hm] at hd
      · exact hR i hi j hj d hd
      · obtain ⟨a, b, ha, hb, rfl⟩ := WithTop.add_eq_coe.mp hd
        exact htrans i j n a b (hR i hi n hn a ha.symm) (hR n hn j hj b hb.symm)
  exact (hall m.size le_rfl).2

section Graphs

variable {g : Graph K} {field : String} {u v : Node}

theorem foldl_smaller (c : K) (cs : List K) :
    cs.foldl Scalar.smaller c ∈ c :: cs ∧ ∀ x ∈ c :: cs, cs.foldl Scalar.smaller c ≤ x := by
  induction cs generalizing c with
  | nil => simp
  | cons b cs ih =>
    have hmin : Scalar.smaller c b = min c b := by
      unfold Scalar.smaller
      split
      · next h => rw [min_eq_right h.le]
      · next h => rw [min_eq_left (not_lt.mp h)]
    obtain ⟨hmem, hle⟩ := ih (Scalar.smaller c b)
    have hfirst := hle _ List.mem_cons_self
    rw [List.foldl_cons]
    refine ⟨?_, fun x hx => ?_⟩
    · rcases List.mem_cons.mp hmem with heq | hmem
      · rw [heq, hmin]
        rcases min_choice c b with h | h <;> simp [h]
      · exact List.mem_cons_of_mem _ (List.mem_cons_of_mem _ hmem)
    · rcases List.mem_cons.mp hx with rfl | hx
      · exact hfirst.trans (hmin ▸ min_le_left _ _)
      rcases List.mem_cons.mp hx with rfl | hx
      · exact hfirst.trans (hmin ▸ min_le_right _ _)
      · exact hle x (List.mem_cons_of_mem _ hx)

theorem direct_spec (g : Graph K) (field : String) (u v : Node) :
    (∀ d : K, (direct g field u v).far = d →
      ∃ l ∈ g.links, l.joins u v = true ∧ l.cost field = d) ∧
    ∀ l ∈ g.links, l.joins u v = true → (direct g field u v).far ≤ l.cost field := by
  have hmem (x : K) : x ∈ (g.between u v).map (fun l => (l.attrs.value? field).getD 1) ↔
      ∃ l ∈ g.links, l.joins u v = true ∧ l.cost field = x := by
    simp [Graph.mem_between, Link.cost, and_assoc]
  unfold direct
  split
  · next h =>
    refine ⟨fun d hd => absurd hd WithTop.top_ne_coe, fun l hl hj => ?_⟩
    have := (hmem _).mpr ⟨l, hl, hj, rfl⟩
    rw [h] at this
    cases this
  · next c cs h =>
    obtain ⟨hin, hle⟩ := foldl_smaller c cs
    rw [← h] at hin hle
    refine ⟨fun d hd => (hmem d).mp ?_, fun l hl hj => ?_⟩
    · rw [← WithTop.coe_inj.mp hd]
      exact hin
    · exact WithTop.coe_le_coe.mpr (hle _ ((hmem _).mpr ⟨l, hl, hj, rfl⟩))

/-- A matrix of links between the vertices of a graph, which `order` lists. -/
structure Linking (g : Graph K) (field : String) (order : List Node) (m : Metric K) : Prop where
  nodup : order.Nodup
  covers : g.vertices ⊆ order
  size : m.size = order.length
  far_eq : ∀ u ∈ order, ∀ v ∈ order,
    m.far (order.idxOf u) (order.idxOf v) = if u = v then 0 else (direct g field u v).far

variable {order : List Node}

theorem exists_linking (h : ofGraph g field order = .ok m) :
    ∃ m₀, Linking g field order m₀ ∧ m = m₀.close := by
  unfold ofGraph at h
  split at h
  swap
  · cases h
  next hcover =>
  obtain ⟨hlen, hnodup, hsub⟩ := hcover
  refine ⟨_, ⟨hnodup, ?_, size_tabulate _, fun u hu v hv => ?_⟩, (Except.ok.inj h).symm⟩
  · exact ((hnodup.subperm hsub).perm_of_length_le hlen.ge).symm.subset
  · rw [far_tabulate _ (List.idxOf_lt_length_of_mem hu) (List.idxOf_lt_length_of_mem hv)]
    by_cases huv : u = v
    · rw [if_pos (by rw [huv]), if_pos huv]
      rfl
    · rw [if_neg (fun heq => huv ((List.idxOf_inj hu).mp heq)), if_neg huv]
      simp [List.getElem?_idxOf hu, List.getElem?_idxOf hv]

theorem Linking.lt_size (h : Linking g field order m) (hu : u ∈ order) :
    order.idxOf u < m.size :=
  h.size ▸ List.idxOf_lt_length_of_mem hu

theorem Linking.exists_vertex (h : Linking g field order m) {i : Nat} (hi : i < m.size) :
    ∃ u ∈ order, order.idxOf u = i := by
  have hi : i < order.length := h.size ▸ hi
  exact ⟨order[i], List.getElem_mem hi, h.nodup.idxOf_getElem i hi⟩

theorem Linking.nonneg (h : Linking g field order m) (hcost : ∀ l ∈ g.links, 0 ≤ l.cost field) :
    ∀ i < m.size, ∀ j < m.size, 0 ≤ m.far i j := by
  intro i hi j hj
  obtain ⟨u, hu, rfl⟩ := h.exists_vertex hi
  obtain ⟨v, hv, rfl⟩ := h.exists_vertex hj
  rw [h.far_eq u hu v hv]
  split
  · exact le_rfl
  · cases hd : (direct g field u v).far with
    | top => exact le_top
    | coe d =>
      obtain ⟨l, hl, -, rfl⟩ := (direct_spec g field u v).1 d hd
      exact WithTop.coe_nonneg.mpr (hcost l hl)

theorem Linking.walk_of_close (h : Linking g field order m) (hu : u ∈ order) (hv : v ∈ order)
    {d : K} (hd : m.close.far (order.idxOf u) (order.idxOf v) = d) : Walk g field u v d := by
  let R (i j : Nat) (d : K) : Prop :=
    ∃ a ∈ order, ∃ b ∈ order, order.idxOf a = i ∧ order.idxOf b = j ∧ Walk g field a b d
  have htrans (i j k : Nat) (c d : K) (hc : R i k c) (hd : R k j d) : R i j (c + d) := by
    obtain ⟨a, ha, w, hw, rfl, rfl, hc⟩ := hc
    obtain ⟨w', hw', b, hb, heq, rfl, hd⟩ := hd
    obtain rfl := (List.idxOf_inj hw').mp heq
    exact ⟨a, ha, b, hb, rfl, rfl, hc.trans hd⟩
  have hdirect : ∀ i < m.size, ∀ j < m.size, ∀ d : K, m.far i j = d → R i j d := by
    intro i hi j hj d hd
    obtain ⟨a, ha, rfl⟩ := h.exists_vertex hi
    obtain ⟨b, hb, rfl⟩ := h.exists_vertex hj
    refine ⟨a, ha, b, hb, rfl, rfl, ?_⟩
    rw [h.far_eq a ha b hb] at hd
    split at hd
    · next hab =>
      obtain rfl : 0 = d := WithTop.coe_inj.mp hd
      exact hab ▸ .nil
    · obtain ⟨l, hl, hj, rfl⟩ := (direct_spec g field a b).1 d hd
      simpa using Walk.nil.step hl hj
  obtain ⟨a, ha, b, hb, hau, hbv, hwalk⟩ :=
    close_induction htrans hdirect _ (h.lt_size hu) _ (h.lt_size hv) d hd
  rwa [(List.idxOf_inj ha).mp hau, (List.idxOf_inj hb).mp hbv] at hwalk

theorem Linking.close_le_walk (h : Linking g field order m) (hg : g.Valid)
    (hcost : ∀ l ∈ g.links, 0 ≤ l.cost field) (hu : u ∈ order) (hv : v ∈ order) {c : K}
    (hc : Walk g field u v c) : m.close.far (order.idxOf u) (order.idxOf v) ≤ c := by
  have hclosing := closing_close (h.nonneg hcost)
  induction hc with
  | nil =>
    refine (hclosing.le _ (h.lt_size hu) _ (h.lt_size hu)).trans ?_
    rw [h.far_eq u hu u hu, if_pos rfl]
    exact le_rfl
  | @step v w c l hc hl hj ih =>
    have hv' : v ∈ order := by
      obtain ⟨ht, hh⟩ := hg.ends l hl
      rcases Link.joins_iff.mp hj with ⟨rfl, -⟩ | ⟨-, rfl⟩
      · exact h.covers ht
      · exact h.covers hh
    have hlink : m.far (order.idxOf v) (order.idxOf w) ≤ l.cost field := by
      rw [h.far_eq v hv' w hv]
      split
      · exact WithTop.coe_nonneg.mpr (hcost l hl)
      · exact (direct_spec g field v w).2 l hl hj
    calc m.close.far (order.idxOf u) (order.idxOf w)
        ≤ m.close.far (order.idxOf u) (order.idxOf v) +
            m.close.far (order.idxOf v) (order.idxOf w) :=
          hclosing.closed _ (h.lt_size hv') _ (h.lt_size hu) _ (h.lt_size hv)
      _ ≤ (c : WithTop K) + l.cost field :=
          add_le_add (ih hv') ((hclosing.le _ (h.lt_size hv') _ (h.lt_size hv)).trans hlink)

/-- The entries between the vertices of a graph are the costs of cheapest walks. -/
theorem ofGraph_spec (hg : g.Valid) (hcost : ∀ l ∈ g.links, 0 ≤ l.cost field)
    (h : ofGraph g field order = .ok m) (hu : u ∈ order) (hv : v ∈ order) :
    (∀ d : K, m.far (order.idxOf u) (order.idxOf v) = d → Walk g field u v d) ∧
      ∀ c, Walk g field u v c → m.far (order.idxOf u) (order.idxOf v) ≤ c := by
  obtain ⟨m₀, hm, rfl⟩ := exists_linking h
  exact ⟨fun d hd => hm.walk_of_close hu hv hd, fun c hc => hm.close_le_walk hg hcost hu hv hc⟩

end Graphs

end Metric

end LPRounding
