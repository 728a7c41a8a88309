import LPRounding.Proofs.Flow.Slack
import LPRounding.Proofs.SteinerTree.Network

/-!
Steiner trees: what the row of a violated cut misses at the point that was rejected. A component
that leaves the set is within reach of the source, as unbounded arcs lead to it, so what it carries
leaves the reach on its arc to its sink.
-/

namespace LPRounding

set_option linter.unusedSectionVars false

variable {K S : Type} [Field K] [LinearOrder K] [IsStrictOrderedRing K] [FloorRing K]

namespace SteinerTree

variable {p : SteinerTree K S} {m : Model K} {entries : List (Nat × Component K × K)}

structure Laid (n : Network Site K) (e : Nat × Component K × K) : Prop where
  wide : ∀ v ∈ e.2.1.sources, n.link? (.vertex v) (.component e.1) = some none
  narrow : n.link? (.component e.1) (.vertex e.2.1.sink) = some (some e.2.2)

theorem laid_network (p : SteinerTree K S) (hn : (entries.map Prod.fst).Nodup) :
    ∀ e ∈ entries, Laid (p.network entries) e := by
  induction entries using List.reverseRecOn with
  | nil => simp
  | append_singleton entries e ih =>
    rw [List.map_append, List.nodup_append] at hn
    obtain ⟨hn, -, hnew⟩ := hn
    have he : e ∈ entries ++ [e] := List.mem_append_right _ (List.mem_singleton.mpr rfl)
    obtain ⟨hr, hlink⟩ := ((p.routed_network entries).mono
      (List.subset_append_left entries [e])).enterAll he fun _ hv => hv
    have hall (s t : Site) : (p.network (entries ++ [e])).link? s t =
        if s = .component e.1 ∧ t = .vertex e.2.1.sink then some (some e.2.2)
        else if s ∈ e.2.1.sources.map Site.vertex ∧ t = .component e.1 then some none
        else (p.network entries).link? s t := by
      rw [network_append, hr.valid.link?_setArc, hlink]
    intro d hd
    rcases List.mem_append.mp hd with hd | hd
    · obtain ⟨hwide, hnarrow⟩ := ih hn d hd
      have hne : d.1 ≠ e.1 := hnew d.1 (List.mem_map_of_mem hd) e.1 (by simp)
      refine ⟨fun v hv => ?_, ?_⟩
      · rw [hall, if_neg (by simp), if_neg (by simp [hne]), hwide v hv]
      · rw [hall, if_neg (by simp [hne]), if_neg (by simp), hnarrow]
    · obtain rfl := List.mem_singleton.mp hd
      refine ⟨fun v hv => ?_, ?_⟩
      · rw [hall, if_neg (by simp), if_pos (by simp [hv])]
      · rw [hall, if_pos ⟨rfl, rfl⟩]

/-- One from each source, and one to the sink. -/
def arcs (c : Component K) : Nat := c.sources.length + 1

def arcsOf (entries : List (Nat × Component K × K)) : List (Site × Site) :=
  entries.flatMap fun e => (.component e.1, .vertex e.2.1.sink) ::
    e.2.1.sources.map fun v => (.vertex v, .component e.1)

theorem card_joints_le (p : SteinerTree K S) (entries : List (Nat × Component K × K))
    (near : Finset Site) :
    ((p.network entries).joints near).card ≤ (entries.map fun e => arcs e.2.1).sum := by
  have hr := p.routed_network entries
  have hlength : (arcsOf entries).length = (entries.map fun e => arcs e.2.1).sum := by
    simp [arcsOf, arcs, List.length_flatMap]
  rw [← hlength]
  refine (Network.card_joints_le (arcsOf entries) Prod.fst Prod.snd fun u v hroom => ?_).trans
    List.countP_le_length
  rcases hr.of_room_ne_zero hroom with ⟨e, he, w, hw, rfl, rfl⟩ | ⟨e, he, rfl, rfl⟩
  · refine ⟨(.vertex w, .component e.1), List.mem_flatMap.mpr ⟨e, he, ?_⟩, .inl ⟨rfl, rfl⟩⟩
    exact List.mem_cons_of_mem _ (List.mem_map_of_mem hw)
  · exact ⟨(.component e.1, .vertex e.2.1.sink),
      List.mem_flatMap.mpr ⟨e, he, List.mem_cons_self⟩, .inl ⟨rfl, rfl⟩⟩

section Reach

variable {s t : Site} {f : Flow K}

theorem sum_room_component (p : SteinerTree K S) (hn : (entries.map Prod.fst).Nodup)
    {e : Nat × Component K × K} (he : e ∈ entries) (hx : 0 ≤ e.2.2) :
    (∑ w ∈ (p.network entries).vertices.toFinset,
      (p.network entries).room (.component e.1) w) = e.2.2 := by
  have hr := p.routed_network entries
  have hnarrow := (p.laid_network hn e he).narrow
  have hsink := (Network.mem_of_link? hr.valid hnarrow).2
  have hout (w : Site) (hw : w ≠ .vertex e.2.1.sink) :
      (p.network entries).room (.component e.1) w = 0 := by
    by_contra hroom
    rcases hr.of_room_ne_zero hroom with ⟨_, -, _, -, heq, -⟩ | ⟨d, hd, heq, rfl⟩
    · cases heq
    · obtain rfl := List.inj_on_of_nodup_map hn hd he (Site.component.inj heq).symm
      exact hw rfl
  rw [Finset.sum_eq_single_of_mem _ (List.mem_toFinset.mpr hsink) fun w _ hw => hout w hw,
    Network.room, if_neg (by simp), hnarrow]
  exact max_eq_left hx

theorem sent_le (hn : (entries.map Prod.fst).Nodup) (hf : (p.network entries).Carries s t f)
    (hs : ∀ j, s ≠ .component j) (ht : ∀ j, t ≠ .component j) {e : Nat × Component K × K}
    (he : e ∈ entries) (hx : 0 ≤ e.2.2) {v : Node} (hv : v ∈ e.2.1.sources) :
    (p.network entries).sent f (.vertex v) (.component e.1) ≤ e.2.2 ∧
      3 * e.2.2 ≤ (p.network entries).room (.vertex v) (.component e.1) := by
  let n := p.network entries
  have hr : Routed p.terminals entries n := p.routed_network entries
  have hwide := (p.laid_network hn e he).wide v hv
  have hnarrow := (p.laid_network hn e he).narrow
  have hall : ∑ w ∈ n.vertices.toFinset, n.room (.component e.1) w = e.2.2 :=
    p.sum_room_component hn he hx
  obtain ⟨hvin, hcin⟩ := Network.mem_of_link? hr.valid hwide
  constructor
  · -- what comes in on one arc goes out on the others
    have hle : n.sent f (.component e.1) (.vertex v) +
        ∑ w ∈ n.vertices.toFinset.erase (.vertex v), n.sent f (.component e.1) w = 0 := by
      rw [Finset.add_sum_erase _ _ (List.mem_toFinset.mpr hvin)]
      exact hf.conserved _ hcin (hs _).symm (ht _).symm
    have hrest : ∑ w ∈ n.vertices.toFinset.erase (.vertex v), n.sent f (.component e.1) w ≤ e.2.2 :=
      calc ∑ w ∈ n.vertices.toFinset.erase (.vertex v), n.sent f (.component e.1) w
          ≤ ∑ w ∈ n.vertices.toFinset.erase (.vertex v), n.room (.component e.1) w :=
            Finset.sum_le_sum fun w hw =>
              hf.within _ hcin w (List.mem_toFinset.mp (Finset.mem_of_mem_erase hw))
        _ ≤ ∑ w ∈ n.vertices.toFinset, n.room (.component e.1) w :=
            Finset.sum_le_sum_of_subset_of_nonneg (Finset.erase_subset _ _)
              fun w _ _ => n.room_nonneg _ w
        _ = e.2.2 := hall
    have hskew := hf.skew _ hvin _ hcin
    linarith
  · have hplenty : n.room (.vertex v) (.component e.1) = n.plenty := by
      rw [Network.room, if_neg (by simp), hwide]
      rfl
    have hvalue : n.room (.component e.1) (.vertex e.2.1.sink) = e.2.2 := by
      rw [Network.room, if_neg (by simp), hnarrow]
      exact max_eq_left hx
    have hthree := hr.valid.three_mul_sum_room_le (t := .vertex e.2.1.sink) fun u hu => by
      obtain ⟨_, -, _, -, -, heq⟩ := hr.wide _ _ hu
      cases heq
    have hone : n.room (.component e.1) (.vertex e.2.1.sink) ≤
        ∑ u ∈ n.vertices.toFinset, n.room u (.vertex e.2.1.sink) :=
      Finset.single_le_sum (f := fun u => n.room u (.vertex e.2.1.sink))
        (fun u _ => n.room_nonneg u _) (List.mem_toFinset.mpr hcin)
    rw [hplenty]
    linarith

theorem mem_reachable_component (hn : (entries.map Prod.fst).Nodup)
    (hf : (p.network entries).Carries s t f) (hs : ∀ j, s ≠ .component j)
    (ht : ∀ j, t ≠ .component j) (hsin : s ∈ (p.network entries).vertices) {ε : K} (h0 : 0 ≤ ε)
    {e : Nat × Component K × K} (he : e ∈ entries) (hx : ε < e.2.2) {v : Node}
    (hv : v ∈ e.2.1.sources)
    (hreach : .vertex v ∈ (p.network entries).reachable f ε ((p.network entries).place s)) :
    .component e.1 ∈ (p.network entries).reachable f ε ((p.network entries).place s) := by
  have hr := p.routed_network entries
  rw [hf.mem_reachable hr.valid h0 hsin] at hreach ⊢
  obtain ⟨hvin, hsv⟩ := hreach
  obtain ⟨-, hcin⟩ := Network.mem_of_link? hr.valid ((p.laid_network hn e he).wide v hv)
  obtain ⟨hsent, hroom⟩ := sent_le hn hf hs ht he (h0.trans hx.le) hv
  exact ⟨hcin, hsv.tail ⟨hvin, hcin, by linarith⟩⟩

def outlet (e : Nat × Component K × K) : Site × Site := (.component e.1, .vertex e.2.1.sink)

theorem sum_room_outlets (p : SteinerTree K S) (hn : (entries.map Prod.fst).Nodup)
    (hnonneg : ∀ e ∈ entries, 0 ≤ e.2.2) (leaving : Nat × Component K × K → Bool) :
    ∑ a ∈ ((entries.filter leaving).map outlet).toFinset, (p.network entries).room a.1 a.2 =
      ((entries.filter leaving).map fun e => e.2.2).sum := by
  have hnodup : ((entries.filter leaving).map outlet).Nodup := by
    refine (hn.of_map.filter _).map_on fun a ha b hb hab => ?_
    exact List.inj_on_of_nodup_map hn (List.mem_filter.mp ha).1 (List.mem_filter.mp hb).1
      (Site.component.inj (Prod.mk.inj hab).1)
  rw [List.sum_toFinset _ hnodup, List.map_map]
  refine congrArg List.sum (List.map_congr_left fun e he => ?_)
  have he := (List.mem_filter.mp he).1
  rw [Function.comp_apply, Network.room, if_neg (by simp [outlet]), outlet,
    (p.laid_network hn e he).narrow]
  exact max_eq_left (hnonneg e he)

theorem sum_leaving_le (p : SteinerTree K S) (hn : (entries.map Prod.fst).Nodup)
    {near : Finset Site} (hnonneg : ∀ e ∈ entries, 0 ≤ e.2.2)
    {leaving : Nat × Component K × K → Bool}
    (hleaving : ∀ e ∈ entries, leaving e = true →
      .component e.1 ∈ near ∧ .vertex e.2.1.sink ∉ near) :
    ((entries.filter leaving).map fun e => e.2.2).sum ≤ (p.network entries).cutRoom near := by
  let n := p.network entries
  have hr : Routed p.terminals entries n := p.routed_network entries
  have hsub : ((entries.filter leaving).map outlet).toFinset ⊆
      near ×ˢ (n.vertices.toFinset \ near) := by
    intro a ha
    obtain ⟨e, he, rfl⟩ := List.mem_map.mp (List.mem_toFinset.mp ha)
    obtain ⟨he, hl⟩ := List.mem_filter.mp he
    obtain ⟨hin, hout⟩ := hleaving e he hl
    have hsink := (Network.mem_of_link? hr.valid (p.laid_network hn e he).narrow).2
    exact Finset.mem_product.mpr ⟨hin, Finset.mem_sdiff.mpr ⟨List.mem_toFinset.mpr hsink, hout⟩⟩
  calc ((entries.filter leaving).map fun e => e.2.2).sum
      = ∑ a ∈ ((entries.filter leaving).map outlet).toFinset, n.room a.1 a.2 :=
        (p.sum_room_outlets hn hnonneg leaving).symm
    _ ≤ ∑ a ∈ near ×ˢ (n.vertices.toFinset \ near), n.room a.1 a.2 :=
        Finset.sum_le_sum_of_subset_of_nonneg hsub fun a _ _ => n.room_nonneg _ _
    _ = n.cutRoom near := Finset.sum_product _ _ _

theorem cutRoom_le_leaving (p : SteinerTree K S) (hn : (entries.map Prod.fst).Nodup)
    {near : Finset Site} (hnonneg : ∀ e ∈ entries, 0 ≤ e.2.2)
    (hheld : ∀ e ∈ entries, ∀ v ∈ e.2.1.sources, .vertex v ∈ near → .component e.1 ∈ near)
    {leaving : Nat × Component K × K → Bool} (hleaving : ∀ e ∈ entries,
      .component e.1 ∈ near → .vertex e.2.1.sink ∉ near → leaving e = true) :
    (p.network entries).cutRoom near ≤ ((entries.filter leaving).map fun e => e.2.2).sum := by
  let n := p.network entries
  have hr : Routed p.terminals entries n := p.routed_network entries
  have hcross : (near ×ˢ (n.vertices.toFinset \ near)).filter (fun a => n.room a.1 a.2 ≠ 0) ⊆
      ((entries.filter leaving).map outlet).toFinset := by
    rintro ⟨s, t⟩ ha
    obtain ⟨ha, hroom⟩ := Finset.mem_filter.mp ha
    obtain ⟨hs, ht⟩ := Finset.mem_product.mp ha
    replace ht : t ∉ near := (Finset.mem_sdiff.mp ht).2
    rcases hr.of_room_ne_zero hroom with ⟨e, he, v, hv, rfl, rfl⟩ | ⟨e, he, rfl, rfl⟩
    · exact absurd (hheld e he v hv hs) ht
    · exact List.mem_toFinset.mpr
        (List.mem_map.mpr ⟨e, List.mem_filter.mpr ⟨he, hleaving e he hs ht⟩, rfl⟩)
  calc n.cutRoom near
      = ∑ a ∈ near ×ˢ (n.vertices.toFinset \ near), n.room a.1 a.2 := by
        rw [Network.cutRoom, Finset.sum_product]
    _ = ∑ a ∈ (near ×ˢ (n.vertices.toFinset \ near)).filter (fun a => n.room a.1 a.2 ≠ 0),
          n.room a.1 a.2 := (Finset.sum_filter_ne_zero _).symm
    _ ≤ ∑ a ∈ ((entries.filter leaving).map outlet).toFinset, n.room a.1 a.2 :=
        Finset.sum_le_sum_of_subset_of_nonneg hcross fun a _ _ => n.room_nonneg _ _
    _ = ((entries.filter leaving).map fun e => e.2.2).sum :=
        p.sum_room_outlets hn hnonneg leaving

theorem sum_leaving_le_value (p : SteinerTree K S) {find : FlowFinder Site K} (hflow : find.Maximal)
    (hn : (entries.map Prod.fst).Nodup) {ε : K} (h0 : 0 ≤ ε) (hlow : ∀ e ∈ entries, ε < e.2.2)
    {u r : Node} {cut : Cut Site K}
    (hcut : (p.network entries).siteCut find ε (.vertex u) (.vertex r) = .ok cut)
    {leaving : Nat × Component K × K → Bool} (hleaving : ∀ e ∈ entries, leaving e = true →
      (∃ v ∈ e.2.1.sources, v ∈ cut.nodes) ∧ e.2.1.sink ∉ cut.nodes) :
    ((entries.filter leaving).map fun e => e.2.2).sum ≤
      cut.value + ε * (entries.map fun e => (arcs e.2.1 : K)).sum := by
  have hr := p.routed_network entries
  obtain ⟨hasked, hvalue, hreach⟩ := FlowFinder.of_siteCut hr.valid hcut
  obtain ⟨-, -, -, hfull⟩ := (hflow _ _ _ hasked).cutRoom_le hr.valid hasked.2.2.2.1 hasked.2.1 h0
  rw [← hreach, ← hvalue] at hfull
  have hcross : ((entries.filter leaving).map fun e => e.2.2).sum ≤
      (p.network entries).cutRoom cut.reachable.toFinset := by
    refine p.sum_leaving_le hn (fun e he => h0.trans (hlow e he).le) fun e he hl => ?_
    obtain ⟨⟨v, hv, hin⟩, hout⟩ := hleaving e he hl
    rw [Cut.mem_nodes] at hin hout
    refine ⟨List.mem_toFinset.mpr ?_, fun hsink => hout (List.mem_toFinset.mp hsink)⟩
    rw [hreach] at hin ⊢
    exact mem_reachable_component hn (hflow _ _ _ hasked).1 (by simp) (by simp) hasked.2.1 h0 he
      (hlow e he) hv hin
  have hcount : (((p.network entries).joints cut.reachable.toFinset).card : K) ≤
      (entries.map fun e => (arcs e.2.1 : K)).sum := by
    have := Nat.cast_le (α := K).mpr (p.card_joints_le entries cut.reachable.toFinset)
    rwa [Nat.cast_list_sum, List.map_map] at this
  have := mul_le_mul_of_nonneg_left hcount h0
  linarith

theorem sum_leaving_witness_le [Backend K] (hn : (entries.map Prod.fst).Nodup)
    (h0 : 0 ≤ p.tolerance.epsilon) (hflow : (Backend.flow : FlowFinder Site K).Maximal)
    (hlow : ∀ e ∈ entries, p.tolerance.epsilon < e.2.2)
    (hsinks : ∀ e ∈ entries, e.2.1.sink ∈ p.terminals) {u : Node} {v : Violation K Node}
    (hv : p.measure (p.network entries) u = .ok v) :
    ((entries.filter fun e => leaves e.2.1 v.witness).map fun e => e.2.2).sum ≤
      1 - v.magnitude + p.tolerance.epsilon * (entries.map fun e => (arcs e.2.1 : K)).sum := by
  obtain ⟨cut, hcut, hv⟩ := ok_bind_iff.mp hv
  obtain rfl := Except.ok.inj hv
  rw [sub_sub_cancel]
  refine p.sum_leaving_le_value hflow hn h0 hlow hcut fun e he hl => ?_
  simp only [leaves, Bool.and_eq_true, decide_eq_true_eq, List.any_eq_true] at hl
  obtain ⟨hsink, w, hw, hwin⟩ := hl
  refine ⟨⟨w, hw, (List.mem_filter.mp hwin).1⟩, fun hin => hsink ?_⟩
  exact List.mem_filter.mpr ⟨hin, by simpa using hsinks e he⟩

end Reach

/-- The components with their places and their values at a point. -/
def valued (p : SteinerTree K S) (x : List K) : List (Nat × Component K × K) :=
  p.components.zipIdx.map fun (c, j) => (j, c, x.getD j 0)

def shown (p : SteinerTree K S) (x : List K) : List (Nat × Component K × K) :=
  (p.valued x).filter fun e => p.tolerance.above e.2.2 0

def span (p : SteinerTree K S) : Nat := (p.components.map arcs).sum

theorem prepare_eq_ok {x : Solution K} (hx : m.solution = some x) {n : Network Site K}
    {cs : List Node} (h : p.prepare m = .ok (n, cs)) :
    n = p.network (p.shown x.values) ∧ cs = p.terminals.tail := by
  obtain ⟨entries, hentries, h⟩ := ok_bind_iff.mp h
  obtain ⟨rfl, rfl⟩ := Prod.mk.inj (Except.ok.inj h)
  refine ⟨?_, rfl⟩
  rw [shown, valued, ← eq_map_of_mapM ?_ hentries]
  rintro ⟨c, j⟩ y hy
  obtain ⟨v, hv, hy⟩ := ok_bind_iff.mp hy
  obtain rfl := Except.ok.inj hy
  obtain rfl := Model.eq_getD_of_columnValue hx hv
  rfl

theorem weigh_cutRow (v : Violation K Node) (x : List K) :
    weigh (p.cutRow v).coefs x =
      (((p.valued x).filter fun e => leaves e.2.1 v.witness).map fun e => e.2.2).sum := by
  rw [weigh_eq, valued, List.filter_map, List.map_map]
  simp only [cutRow, cover, Model.positions, List.map_map, sum_map_filter]
  congr 1
  refine List.map_congr_left fun e _ => ?_
  simp

theorem nodup_valued (p : SteinerTree K S) (x : List K) :
    ((p.valued x).map Prod.fst).Nodup := by
  rw [valued, List.map_map]
  exact (List.zipIdx_map_snd 0 p.components) ▸ List.nodup_range'

theorem nodup_shown (p : SteinerTree K S) (x : List K) : ((p.shown x).map Prod.fst).Nodup :=
  (p.nodup_valued x).sublist (List.filter_sublist.map _)

theorem sum_arcs_valued (p : SteinerTree K S) (x : List K) :
    ((p.valued x).map fun e => (arcs e.2.1 : K)).sum = p.span := by
  rw [span, Nat.cast_list_sum, valued, List.map_map, List.map_map]
  conv_rhs => rw [← List.zipIdx_map_fst 0 p.components, List.map_map]
  rfl

theorem of_mem_shown {x : List K} {e : Nat × Component K × K} (he : e ∈ p.shown x) :
    e.2.1 ∈ p.components ∧ p.tolerance.epsilon < e.2.2 := by
  obtain ⟨he, ha⟩ := List.mem_filter.mp he
  obtain ⟨⟨c, j⟩, hc, rfl⟩ := List.mem_map.mp he
  exact ⟨List.fst_mem_of_mem_zipIdx hc, by simpa using (Tolerance.above_iff _ _ _).mp ha⟩

/-- The row of a cut that was measured misses the magnitude, but for the tolerance on the arcs. -/
theorem shortfall [Backend K] (hsinks : ∀ c ∈ p.components, c.sink ∈ p.terminals)
    (h0 : 0 ≤ p.tolerance.epsilon) (hflow : (Backend.flow : FlowFinder Site K).Maximal)
    {x : List K} {u : Node} {v : Violation K Node}
    (hv : p.measure (p.network (p.shown x)) u = .ok v) :
    weigh (p.cutRow v).coefs x + v.magnitude ≤ v.side + p.tolerance.epsilon * p.span := by
  have hkept := sum_leaving_witness_le (p.nodup_shown x) h0 hflow (fun e he => (of_mem_shown he).2)
    (fun e he => hsinks _ (of_mem_shown he).1) hv
  have hout : ∀ e ∈ p.valued x, p.tolerance.above e.2.2 0 = false →
      (if leaves e.2.1 v.witness then e.2.2 else 0) ≤ p.tolerance.epsilon * (arcs e.2.1 : K) := by
    intro e _ hlow
    have hlow : e.2.2 ≤ p.tolerance.epsilon := by simpa [Tolerance.above] using hlow
    have harcs : (1 : K) ≤ arcs e.2.1 := by
      rw [arcs]
      exact_mod_cast Nat.le_add_left 1 _
    split
    · exact hlow.trans (le_mul_of_one_le_right h0 harcs)
    · exact mul_nonneg h0 (zero_le_one.trans harcs)
  have hall := sum_le_of_kept hkept hout
  rw [p.sum_arcs_valued] at hall
  have hside : v.side = 1 := by
    obtain ⟨cut, -, hv⟩ := ok_bind_iff.mp hv
    rw [← Except.ok.inj hv]
  rw [weigh_cutRow, hside]
  linarith

theorem not_admits_of_finds [Backend K] (hsinks : ∀ c ∈ p.components, c.sink ∈ p.terminals)
    (h0 : 0 ≤ p.tolerance.epsilon) (hflow : (Backend.flow : FlowFinder Site K).Maximal)
    {x : Solution K} (hx : m.solution = some x) {v : Violation K Node}
    (h : Oracle.Finds checker p m v) (hlarge : p.tolerance.epsilon * p.span < v.magnitude) :
    ¬ (p.cutRow v).bound.Admits (weigh (p.cutRow v).coefs x.values) := by
  obtain ⟨n, cs, hprep, u, -, hv⟩ := h
  obtain ⟨rfl, rfl⟩ := prepare_eq_ok hx hprep
  have := shortfall hsinks h0 hflow hv
  intro hadm
  have hadm : v.side ≤ weigh (p.cutRow v).coefs x.values := hadm
  linarith

end SteinerTree

end LPRounding
