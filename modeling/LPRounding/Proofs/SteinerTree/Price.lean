import LPRounding.Proofs.Graph.Shortcut
import LPRounding.Proofs.Graph.Tripod
import LPRounding.Proofs.SteinerTree.Component

/-!
How low prices are. No set of terminals costs more than the rays that lead to it from one of its
members or, up to the tolerance, from a Steiner vertex. Whatever connects three terminals costs no
less than the rays from some vertex, so nothing is cheaper there.
-/

namespace LPRounding

set_option linter.unusedSectionVars false

variable {K : Type} [Field K] [LinearOrder K] [IsStrictOrderedRing K] [FloorRing K]

theorem Metric.Weak.metrical {V : Type} {m : Metric K} {n : Nat} {place : V → Nat} {vs : List V}
    (h : m.Weak n) (hplace : ∀ v ∈ vs, place v < n) : Metrical (m.between place) vs :=
  ⟨fun u hu v hv => h.nonneg (hplace u hu) (hplace v hv), fun u hu => h.zero _ (hplace u hu),
    fun u hu v hv => h.symm _ (hplace u hu) _ (hplace v hv),
    fun u hu v hv w hw => h.triangle _ (hplace u hu) _ (hplace v hv) _ (hplace w hw)⟩

namespace Component

variable {t : Tolerance K} {m : Metric K} {place : Node → Nat} {set steiner : List Node} {c : K}

def rays (m : Metric K) (place : Node → Nat) (set : List Node) (x : Node) : WithTop K :=
  (set.map fun u => m.between place u x).sum

def edge (m : Metric K) (places : List Nat) (i j : Nat) : Weighted Nat K :=
  { u := min i j, v := max i j
    weight := price (m.dist (places.getD (min i j) 0) (places.getD (max i j) 0)) }

theorem edge_mem_complete {places : List Nat} {i j : Nat} (hi : i < places.length)
    (hj : j < places.length) (hne : i ≠ j) : edge m places i j ∈ complete m places :=
  mem_complete_of_lt (max_lt hi hj) (min_lt_max.mpr hne)

theorem joined_edge {places : List Nat} {i j : Nat} {es : List (Weighted Nat K)}
    (h : edge m places i j ∈ es) : Joined (es.map Weighted.ends) i j := by
  have hends := List.mem_map_of_mem (f := Weighted.ends) h
  rcases le_total i j with hij | hij
  · rw [Weighted.ends, edge, min_eq_left hij, max_eq_right hij] at hends
    exact Adjacent.joined (.inl hends)
  · rw [Weighted.ends, edge, min_eq_right hij, max_eq_left hij] at hends
    exact Adjacent.joined (.inr hends)

theorem weight_edge (hd : Metrical (m.between place) set)
    (hfin : ∀ u ∈ set, ∀ v ∈ set, m.between place u v ≠ ⊤) {i j : Nat} (hi : i < set.length)
    (hj : j < set.length) :
    ((edge m (set.map place) i j).weight : WithTop K) = m.between place set[i] set[j] := by
  have hweight {a b : Nat} (ha : a < set.length) (hb : b < set.length) :
      ((price (m.dist ((set.map place).getD a 0) ((set.map place).getD b 0)) : K) : WithTop K) =
        m.between place set[a] set[b] := by
    have hfinite := hfin _ (List.getElem_mem ha) _ (List.getElem_mem hb)
    rw [List.getD_eq_getElem _ _ (by simpa using ha), List.getD_eq_getElem _ _ (by simpa using hb),
      List.getElem_map, List.getElem_map]
    exact coe_price hfinite
  rcases le_total i j with hij | hij
  · simp only [edge, min_eq_left hij, max_eq_right hij]
    exact hweight hi hj
  · simp only [edge, min_eq_right hij, max_eq_left hij]
    rw [hweight hj hi]
    exact hd.symm _ (List.getElem_mem hj) _ (List.getElem_mem hi)

def star (m : Metric K) (places : List Nat) (k : Nat) : List (Weighted Nat K) :=
  ((List.range places.length).filter (· ≠ k)).map fun i => edge m places i k

theorem mem_star {places : List Nat} {k : Nat} {e : Weighted Nat K} :
    e ∈ star m places k ↔ ∃ i < places.length, i ≠ k ∧ edge m places i k = e := by
  simp [star, and_assoc]

theorem connected_star (m : Metric K) (places : List Nat) (k : Nat) :
    Connected (List.range places.length) ((star m places k).map Weighted.ends) := by
  have hk {i : Nat} (hi : i ∈ List.range places.length) :
      Joined ((star m places k).map Weighted.ends) i k := by
    by_cases hik : i = k
    · exact hik ▸ .refl
    · exact joined_edge (mem_star.mpr ⟨i, List.mem_range.mp hi, hik, rfl⟩)
  exact fun i hi j hj => (hk hi).trans (hk hj).symm

theorem weigh_star_le (hd : Metrical (m.between place) set)
    (hfin : ∀ u ∈ set, ∀ v ∈ set, m.between place u v ≠ ⊤) {k : Nat} (hk : k < set.length) :
    ((Weighted.weigh (star m (set.map place) k) : K) : WithTop K) ≤ rays m place set set[k] := by
  have hrays : ((List.range set.length).map fun i => m.between place (set.getD i set[k]) set[k]) =
      set.map fun u => m.between place u set[k] := by
    refine List.ext_getElem (by simp) fun i hi hi' => ?_
    have hlt : i < set.length := by simpa using hi'
    simp [hlt]
  have hray {i : Nat} (hi : i < set.length) :
      ((edge m (set.map place) i k).weight : WithTop K) =
        m.between place (set.getD i set[k]) set[k] := by
    rw [List.getD_eq_getElem _ _ hi]
    exact weight_edge hd hfin hi hk
  rw [Weighted.weigh, coe_sum, star, List.length_map, List.map_map, List.map_map, rays, ← hrays]
  calc (((List.range set.length).filter (· ≠ k)).map _).sum
      = (((List.range set.length).filter (· ≠ k)).map fun i =>
          m.between place (set.getD i set[k]) set[k]).sum :=
        congrArg _ (List.map_congr_left fun i hi =>
          hray (List.mem_range.mp (List.mem_of_mem_filter hi)))
    _ ≤ _ := by
        refine (List.filter_sublist.map _).sum_le_sum fun w hw => ?_
        rw [hrays] at hw
        obtain ⟨u, hu, rfl⟩ := List.mem_map.mp hw
        exact hd.nonneg u hu _ (List.getElem_mem hk)

theorem treeCost_le_rays (hd : Metrical (m.between place) set)
    (hfin : ∀ u ∈ set, ∀ v ∈ set, m.between place u v ≠ ⊤)
    (h : treeCost m (set.map place) = .ok c) {x : Node} (hx : x ∈ set) :
    (c : WithTop K) ≤ rays m place set x := by
  obtain ⟨k, hk, rfl⟩ := List.getElem_of_mem hx
  have hlength : (set.map place).length = set.length := List.length_map _
  refine le_trans ?_ (weigh_star_le hd hfin hk)
  rw [← weigh_of_treeCost h, WithTop.coe_le_coe]
  refine Weighted.weigh_minimumForest_le (fun e he => ?_) (connected_star m _ k)
    (fun e he => ?_) fun e he => ?_
  · obtain ⟨-, a, b, ha, hb, -⟩ := mem_complete he
    exact ⟨List.mem_range.mpr (List.getElem?_eq_some_iff.mp ha).1,
      List.mem_range.mpr (List.getElem?_eq_some_iff.mp hb).1⟩
  · obtain ⟨i, hi, hik, rfl⟩ := mem_star.mp he
    exact edge_mem_complete hi (hlength ▸ hk) hik
  · obtain ⟨i, hi, -, rfl⟩ := mem_star.mp he
    have hi : i < set.length := hlength ▸ hi
    rw [← WithTop.coe_le_coe, weight_edge hd hfin hi hk]
    exact hd.nonneg _ (List.getElem_mem hi) _ hx

theorem precedes_iff {a b : Distance K} : precedes a b = true ↔ a.far < b.far := by
  cases a <;> cases b <;> simp [precedes, Scalar.isUndefined, Scalar.isFinite]

def cheaper (best : Option (Node × Distance K)) (star : Node × Distance K) :
    Option (Node × Distance K) :=
  match best with
  | none => some star
  | some b => if precedes star.2 b.2 then some star else some b

theorem exists_cheaper (best : Option (Node × Distance K)) (star : Node × Distance K) :
    ∃ b, cheaper best star = some b ∧ b.2.far ≤ star.2.far ∧
      ∀ s, best = some s → b.2.far ≤ s.2.far := by
  cases best with
  | none => exact ⟨star, rfl, le_rfl, fun s hs => by cases hs⟩
  | some s =>
    by_cases hlt : precedes star.2 s.2 = true
    · refine ⟨star, if_pos hlt, le_rfl, fun s' hs' => ?_⟩
      exact Option.some.inj hs' ▸ (precedes_iff.mp hlt).le
    · refine ⟨s, if_neg hlt, not_lt.mp (precedes_iff.not.mp hlt), fun s' hs' => ?_⟩
      exact (congrArg (fun x => x.2.far) (Option.some.inj hs')).le

theorem exists_foldl_cheaper {stars : List (Node × Distance K)}
    (best : Option (Node × Distance K)) {s : Node × Distance K} (hs : best = some s ∨ s ∈ stars) :
    ∃ b, stars.foldl cheaper best = some b ∧ b.2.far ≤ s.2.far := by
  induction stars generalizing best s with
  | nil => exact ⟨s, hs.resolve_right (by simp), le_rfl⟩
  | cons a stars ih =>
    obtain ⟨b, hb, hba, hbest⟩ := exists_cheaper best a
    rw [List.foldl_cons]
    rcases hs with hs | hs
    · obtain ⟨d, hd, hle⟩ := ih _ (.inl hb)
      exact ⟨d, hd, hle.trans (hbest s hs)⟩
    rcases List.mem_cons.mp hs with rfl | hs
    · obtain ⟨d, hd, hle⟩ := ih _ (.inl hb)
      exact ⟨d, hd, hle.trans hba⟩
    · exact ih _ (.inr hs)

theorem exists_bestStar (m : Metric K) (place : Node → Nat) (set : List Node) {v : Node}
    (hv : v ∈ steiner) :
    ∃ b, bestStar m (set.map place) (steiner.map fun v => (v, place v)) = some b ∧
      b.2.far ≤ rays m place set v := by
  let centers := steiner.map fun v => (v, place v)
  have hstar : (v, starCost m (set.map place) (centers.length == 1) (place v)) ∈
      centers.map fun c => (c.1, starCost m (set.map place) (centers.length == 1) c.2) :=
    List.mem_map_of_mem (List.mem_map_of_mem hv)
  obtain ⟨b, hb, hle⟩ := exists_foldl_cheaper none (.inr hstar)
  refine ⟨b, hb, hle.trans_eq ?_⟩
  rw [far_starCost, List.map_map]
  rfl

theorem priced_le {added : List Node} (h0 : 0 ≤ t.epsilon)
    (h : priced t m (set.map place) (steiner.map fun v => (v, place v)) = .ok (c, added)) :
    ∃ tree, treeCost m (set.map place) = .ok tree ∧ c ≤ tree ∧
      (2 < set.length → ∀ v ∈ steiner, (c : WithTop K) ≤ rays m place set v + t.epsilon) := by
  obtain ⟨tree, htree, h⟩ := ok_bind_iff.mp h
  have hlength : (set.map place).length = set.length := List.length_map _
  refine ⟨tree, htree, ?_⟩
  split at h
  · next v star hbest =>
    have h := Except.ok.inj h
    have hstar : ∀ w ∈ steiner, (star : WithTop K) ≤ rays m place set w := by
      intro w hw
      obtain ⟨b, hb, hle⟩ := exists_bestStar m place set hw
      split at hbest
      · obtain rfl := Option.some.inj (hb.symm.trans hbest)
        exact hle
      · cases hbest
    by_cases hbelow : t.below star tree = true
    · rw [if_pos hbelow] at h
      obtain ⟨rfl, -⟩ := Prod.mk.inj h
      have hlt : star < tree - t.epsilon := of_decide_eq_true hbelow
      refine ⟨by linarith, fun _ w hw => (hstar w hw).trans (le_add_of_nonneg_right ?_)⟩
      exact WithTop.coe_nonneg.mpr h0
    · rw [if_neg hbelow] at h
      obtain ⟨rfl, -⟩ := Prod.mk.inj h
      have hle : tree - t.epsilon ≤ star := not_lt.mp fun hlt => hbelow (decide_eq_true hlt)
      refine ⟨le_rfl, fun _ w hw => ?_⟩
      calc (tree : WithTop K) ≤ (star + t.epsilon : K) :=
            WithTop.coe_le_coe.mpr (sub_le_iff_le_add.mp hle)
        _ = star + t.epsilon := WithTop.coe_add _ _
        _ ≤ rays m place set w + t.epsilon := add_le_add_left (hstar w hw) _
  · next hnone =>
    obtain ⟨rfl, -⟩ := Prod.mk.inj (Except.ok.inj h)
    refine ⟨le_rfl, fun h2 w hw => ?_⟩
    -- the best star leads along a distance that is missing, so every star does
    obtain ⟨⟨v, d⟩, hb, hle⟩ := exists_bestStar m place set hw
    cases d with
    | none =>
      have htop : rays m place set w = ⊤ := top_le_iff.mp hle
      rw [htop, top_add]
      exact le_top
    | some star =>
      refine absurd ?_ (hnone v star)
      rw [if_pos (hlength ▸ h2), hb]

/-- With up to three terminals, whatever connects them over Steiner vertices costs no less than
their price, up to the tolerance. -/
theorem priced_le_outlay {added extra : List Node} {es : List (Node × Node)} (h0 : 0 ≤ t.epsilon)
    (h : priced t m (set.map place) (steiner.map fun v => (v, place v)) = .ok (c, added))
    (h2 : 2 ≤ set.length) (h3 : set.length ≤ 3)
    (hd : Metrical (m.between place) (set ++ extra))
    (hfin : ∀ u ∈ set, ∀ v ∈ set, m.between place u v ≠ ⊤) (hextra : extra ⊆ steiner)
    (hends : ∀ e ∈ es, e.1 ∈ set ++ extra ∧ e.2 ∈ set ++ extra) (hconn : Connected set es) :
    (c : WithTop K) ≤ outlay (m.between place) es + t.epsilon := by
  have hset : set ⊆ set ++ extra := List.subset_append_left _ _
  obtain ⟨tree, htree, hle, hstar⟩ := priced_le h0 h
  have hmember {x : Node} (hx : x ∈ set) : (c : WithTop K) ≤ rays m place set x + t.epsilon :=
    calc (c : WithTop K) ≤ tree := WithTop.coe_le_coe.mpr hle
      _ ≤ rays m place set x := treeCost_le_rays (hd.mono hset) hfin htree hx
      _ ≤ rays m place set x + t.epsilon :=
          le_add_of_nonneg_right (WithTop.coe_nonneg.mpr h0)
  suffices hrays : ∃ x ∈ set ++ extra, (x ∈ set ∨ 2 < set.length) ∧
      rays m place set x ≤ outlay (m.between place) es by
    obtain ⟨x, hx, hsize, hrays⟩ := hrays
    refine le_trans ?_ (add_le_add_left hrays _)
    by_cases hxs : x ∈ set
    · exact hmember hxs
    · exact hstar (hsize.resolve_left hxs) x (hextra ((List.mem_append.mp hx).resolve_left hxs))
  match set, h2, h3 with
  | [a, b], _, _ =>
    have ha : a ∈ [a, b] := List.mem_cons_self
    have hb : b ∈ [a, b] := by simp
    refine ⟨a, hset ha, .inl ha, ?_⟩
    have hsum : rays m place [a, b] a = m.between place b a := by
      simp [rays, hd.zero a (hset ha)]
    rw [hsum]
    exact hd.le_outlay hends (hset hb) (hset ha) (hconn b hb a ha)
  | [a, b, d], _, _ =>
    have ha : a ∈ [a, b, d] := List.mem_cons_self
    have hb : b ∈ [a, b, d] := by simp
    have hc : d ∈ [a, b, d] := by simp
    obtain ⟨x, hx, hle⟩ := hd.hasTripods hends a (hset ha) b (hset hb) d (hset hc)
      (hconn a ha b hb) (hconn a ha d hc)
    refine ⟨x, hx, .inr (by simp), ?_⟩
    simpa [rays, add_assoc] using hle

end Component

end LPRounding
