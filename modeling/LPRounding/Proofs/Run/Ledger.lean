import LPRounding.Proofs.LP.Vertex
import LPRounding.Proofs.Sums
import LPRounding.Run.Sink

/-!
What a run hands over while it goes on. The list of answers grows by one entry for each column that
is fixed at one, so in the end it says the same as the point.
-/

namespace LPRounding

def Choice.ends? : Choice → Option (Node × Node)
  | .vertex _ => none
  | .edge e => some (e.u, e.v)

def ends (cs : List Choice) : List (Node × Node) := cs.filterMap Choice.ends?

@[simp] theorem ends_append (cs ds : List Choice) : ends (cs ++ ds) = ends cs ++ ends ds :=
  List.filterMap_append

@[simp] theorem ends_edge (e : EdgeName) : ends [.edge e] = [(e.u, e.v)] := rfl

theorem mem_ends {cs : List Choice} {e : EdgeName} (h : .edge e ∈ cs) : (e.u, e.v) ∈ ends cs :=
  List.mem_filterMap.mpr ⟨_, h, rfl⟩

theorem Sink.added_push {s : Sink} (h : s.kept ≤ s.entries.length) (c : Choice) :
    (s.push c).added = s.added ++ [c] := by
  simp [Sink.added, Sink.push, List.drop_append_of_le_length h]

set_option linter.unusedSectionVars false

variable {K : Type} [Field K] [LinearOrder K] [IsStrictOrderedRing K] [FloorRing K]

/-- The columns at one are the entries that the run added, in some order. -/
structure Ledger (names : List EdgeName) (start : List Choice) (m₀ m : Model K) (sink : Sink) :
    Prop where
  grown : m₀.Grown m
  integral : ∀ (j : Nat) v, m.fixedAt j = some v → v = 0 ∨ v = 1
  kept : sink.kept = start.length
  entries : ∃ cols : List Nat, cols.Nodup ∧ (∀ j, j ∈ cols ↔ m.fixedAt j = some 1) ∧
    (∀ j ∈ cols, j < names.length) ∧
    sink.entries = start ++ cols.filterMap fun j => names[j]?.map Choice.edge

namespace Ledger

variable {names : List EdgeName} {start : List Choice} {m₀ m m' : Model K} {sink : Sink} {j : Nat}

theorem ofList (hm : ∀ c ∈ m.columns, c.fixed = none) :
    Ledger names start m m (.ofList start) := by
  have hopen (j : Nat) : m.fixedAt j = none :=
    Option.bind_eq_none_iff.mpr fun c hc => hm c (List.mem_of_getElem? hc)
  refine ⟨.refl m, ?_, rfl, [], List.nodup_nil, ?_, by simp, by simp [Sink.ofList]⟩
  · intro j v hv
    simp [hopen] at hv
  · intro j
    simp [hopen]

theorem of_columns (h : Ledger names start m₀ m sink) (hg : m₀.Grown m')
    (hc : m'.columns = m.columns) : Ledger names start m₀ m' sink := by
  have hf (j : Nat) : m'.fixedAt j = m.fixedAt j := by rw [Model.fixedAt, Model.fixedAt, hc]
  refine ⟨hg, ?_, h.kept, ?_⟩
  · intro j v hv
    exact h.integral j v (hf j ▸ hv)
  · obtain ⟨cols, hn, hmem, he⟩ := h.entries
    exact ⟨cols, hn, fun j => by rw [hf, hmem], he⟩

theorem solve {solver : Solver K} {st : Status} (h : Ledger names start m₀ m sink)
    (hr : Returns (Model.solve solver) m st m') : Ledger names start m₀ m' sink := by
  obtain ⟨s, rfl, -⟩ := Model.returns_solve hr
  exact h.of_columns (h.grown.solution s) rfl

theorem relax (h : Ledger names start m₀ m sink) (hr : Returns (Model.relaxRow j) m () m') :
    Ledger names start m₀ m' sink := by
  obtain ⟨r, hrow, -, rfl⟩ := Model.returns_relaxRow.mp hr
  exact h.of_columns (h.grown.relax hrow) rfl

theorem append (h : Ledger names start m₀ m sink) (r : Row K) :
    Ledger names start m₀ { m with rows := m.rows ++ [r] } sink :=
  h.of_columns (h.grown.append r) rfl

theorem drop (h : Ledger names start m₀ m sink) (hr : Returns (Model.fixColumn j 0) m () m') :
    Ledger names start m₀ m' sink := by
  obtain ⟨c, hc, hn, rfl⟩ := Model.returns_fixColumn.mp hr
  have hj : m.fixedAt j = none := by simp [Model.fixedAt, hc, hn]
  refine ⟨h.grown.fix hc, ?_, h.kept, ?_⟩
  · intro i v hv
    rw [Model.fixedAt_set hc] at hv
    split at hv
    · exact .inl (Option.some.inj hv).symm
    · exact h.integral i v hv
  · obtain ⟨cols, hn, hmem, he⟩ := h.entries
    refine ⟨cols, hn, fun i => ?_, he⟩
    rw [Model.fixedAt_set hc, hmem]
    by_cases hi : i = j
    · subst hi
      simp [hj]
    · simp [hi]

theorem take (h : Ledger names start m₀ m sink) {e : EdgeName} (he : names[j]? = some e)
    (hr : Returns (Model.fixColumn j 1) m () m') :
    Ledger names start m₀ m' (sink.push (.edge e)) := by
  obtain ⟨c, hc, hn, rfl⟩ := Model.returns_fixColumn.mp hr
  have hj : m.fixedAt j = none := by simp [Model.fixedAt, hc, hn]
  refine ⟨h.grown.fix hc, ?_, h.kept, ?_⟩
  · intro i v hv
    rw [Model.fixedAt_set hc] at hv
    split at hv
    · exact .inr (Option.some.inj hv).symm
    · exact h.integral i v hv
  · obtain ⟨cols, hnd, hmem, hlt, hent⟩ := h.entries
    have hnew : j ∉ cols := by
      rw [hmem, hj]
      simp
    refine ⟨cols ++ [j], ?_, fun i => ?_, ?_, ?_⟩
    · rw [← List.concat_eq_append]
      exact hnd.concat hnew
    · rw [Model.fixedAt_set hc, List.mem_append, hmem, List.mem_singleton]
      by_cases hi : i = j <;> simp [hi]
    · intro i hi
      rcases List.mem_append.mp hi with hi | hi
      · exact hlt i hi
      · exact List.mem_singleton.mp hi ▸ (List.getElem?_eq_some_iff.mp he).1
    · simp [Sink.push, hent, he]

theorem kept_le (h : Ledger names start m₀ m sink) : sink.kept ≤ sink.entries.length := by
  obtain ⟨cols, -, -, -, he⟩ := h.entries
  rw [h.kept, he, List.length_append]
  exact Nat.le_add_right _ _

theorem take_kept (h : Ledger names start m₀ m sink) : sink.entries.take sink.kept = start := by
  obtain ⟨cols, -, -, -, he⟩ := h.entries
  rw [h.kept, he, List.take_left]

theorem entries_eq (h : Ledger names start m₀ m sink) : sink.entries = start ++ sink.added := by
  conv_lhs => rw [← List.take_append_drop sink.kept sink.entries, h.take_kept]
  rfl

theorem added_perm (h : Ledger names start m₀ m sink) :
    sink.added.Perm (((List.finRange names.length).filter fun k : Fin names.length =>
      m.fixedAt k = some 1).map fun k => .edge names[k]) := by
  obtain ⟨cols, hn, hmem, hlt, he⟩ := h.entries
  have hadded : sink.added = cols.filterMap fun j => names[j]?.map Choice.edge := by
    rw [Sink.added, h.kept, he, List.drop_left]
  have hp : cols.Perm (((List.finRange names.length).filter fun k : Fin names.length =>
      m.fixedAt k = some 1).map Fin.val) := by
    have hnd := ((List.nodup_finRange names.length).filter fun k : Fin names.length =>
      m.fixedAt k = some 1).map Fin.val_injective
    refine (List.perm_ext_iff_of_nodup hn hnd).mpr fun j => ?_
    simp only [List.mem_map, List.mem_filter, List.mem_finRange, true_and, decide_eq_true_eq]
    constructor
    · intro hj
      exact ⟨⟨j, hlt j hj⟩, (hmem j).mp hj, rfl⟩
    · rintro ⟨k, hk, rfl⟩
      exact (hmem k).mpr hk
  rw [hadded]
  refine (hp.filterMap _).trans (List.Perm.of_eq ?_)
  rw [List.filterMap_map, ← List.filterMap_eq_map]
  congr 1
  funext k
  simp

theorem mem_added (h : Ledger names start m₀ m sink) {e : EdgeName} :
    .edge e ∈ sink.added ↔ ∃ j, m.fixedAt j = some 1 ∧ names[j]? = some e := by
  rw [h.added_perm.mem_iff]
  simp only [List.mem_map, List.mem_filter, List.mem_finRange, true_and, decide_eq_true_eq,
    Choice.edge.injEq]
  constructor
  · rintro ⟨k, hk, rfl⟩
    exact ⟨k, hk, List.getElem?_eq_getElem k.isLt⟩
  · rintro ⟨j, hj, he⟩
    obtain ⟨hlt, rfl⟩ := List.getElem?_eq_some_iff.mp he
    exact ⟨⟨j, hlt⟩, hj, rfl⟩

theorem exists_name (h : Ledger names start m₀ m sink) {c : Choice} (hc : c ∈ sink.added) :
    ∃ e ∈ names, .edge e = c := by
  obtain ⟨k, -, hk⟩ := List.mem_map.mp (h.added_perm.mem_iff.mp hc)
  exact ⟨names[k], List.getElem_mem k.isLt, hk⟩

theorem length_ends (h : Ledger names start m₀ m sink) :
    (ends sink.added).length = sink.added.length := by
  rw [ends, List.length_filterMap_eq_countP, List.countP_eq_length]
  intro c hc
  obtain ⟨e, -, rfl⟩ := h.exists_name hc
  rfl

theorem mem_names (h : Ledger names start m₀ m sink) {p : Node × Node} (hp : p ∈ ends sink.added) :
    ∃ e ∈ names, (e.u, e.v) = p := by
  obtain ⟨c, hc, he⟩ := List.mem_filterMap.mp hp
  obtain ⟨e, hmem, rfl⟩ := h.exists_name hc
  exact ⟨e, hmem, Option.some.inj he⟩

theorem nodup_added (h : Ledger names start m₀ m sink) (hn : names.Nodup) : sink.added.Nodup := by
  refine h.added_perm.nodup_iff.mpr (((List.nodup_finRange _).filter _).map ?_)
  intro i k hik
  exact Fin.ext ((List.Nodup.getElem_inj_iff hn).mp (Choice.edge.inj hik))

theorem good_getD (h : Ledger names start m₀ m sink) (good : K → Prop) (hzero : good 0)
    (hone : good 1) (hm : ∀ c ∈ m₀.columns, ∀ v, c.bound.Admits v → good v) {x : List K}
    (hx : m.Admits x) (j : Nat) : good (x.getD j 0) := by
  by_cases hj : j < m.columns.length
  · have hget : x[j]? = some (x.getD j 0) := by simp [hx.length, hj]
    have hcolumn := hx.columns j _ _ (List.getElem?_eq_getElem hj) hget
    obtain ⟨c₀, hc₀, -, hbound⟩ := h.grown.column (List.getElem?_eq_getElem hj)
    cases hf : m.columns[j].fixed with
    | some v =>
      rw [Column.Admits, hf] at hcolumn
      have hv : m.fixedAt j = some v := by simp [Model.fixedAt, hj, hf]
      rw [hcolumn]
      rcases h.integral j v hv with rfl | rfl
      · exact hzero
      · exact hone
    | none =>
      rw [Column.Admits, hf, hbound] at hcolumn
      exact hm c₀ (List.mem_of_getElem? hc₀) _ hcolumn
  · rw [List.getD_eq_default _ _ (by rw [hx.length]; exact Nat.le_of_not_lt hj)]
    exact hzero

theorem range (h : Ledger names start m₀ m sink)
    (hm : ∀ c ∈ m₀.columns, c.bound = { kind := .double, lo := 0, hi := 1 }) {x : List K}
    (hx : m.Admits x) (j : Nat) : 0 ≤ x.getD j 0 ∧ x.getD j 0 ≤ 1 := by
  refine h.good_getD (fun v => 0 ≤ v ∧ v ≤ 1) ⟨le_rfl, zero_le_one⟩ ⟨zero_le_one, le_rfl⟩
    (fun c hc v hv => ?_) hx j
  rw [hm c hc] at hv
  exact hv

theorem getD_filled (h : Ledger names start m₀ m sink) (hj : j < m.columns.length) :
    (m.columns.map fun c => c.fixed.getD 1).getD j 0 =
      if m.fixedAt j ≠ some 0 then (1 : K) else 0 := by
  have hf : m.fixedAt j = m.columns[j].fixed := by simp [Model.fixedAt, hj]
  rw [List.getD_eq_getElem?_getD, List.getElem?_map, List.getElem?_eq_getElem hj, Option.map_some,
    Option.getD_some, hf]
  cases hv : m.columns[j].fixed with
  | none => simp
  | some v => rcases h.integral j v (hf.trans hv) with rfl | rfl <;> simp

/-- They are within the bounds of columns that may be one. -/
theorem filled_admits (h : Ledger names start m₀ m sink)
    (hone : ∀ c ∈ m₀.columns, c.bound.Admits 1) {c : Column K} {v : K}
    (hc : m.columns[j]? = some c) (hv : (m.columns.map fun c => c.fixed.getD 1)[j]? = some v) :
    c.Admits v := by
  obtain rfl : c.fixed.getD 1 = v := by simpa [hc] using hv
  unfold Column.Admits
  cases hf : c.fixed with
  | some v => rfl
  | none =>
    obtain ⟨c₀, hc₀, -, hb⟩ := h.grown.column hc
    rw [hb]
    exact hone c₀ (List.mem_of_getElem? hc₀)

theorem open_column (h : Ledger names start m₀ m sink) {b : Bound K}
    (hm : ∀ c ∈ m₀.columns, c.bound = b) (hj : j ∈ m.activeColumns) :
    ∃ c, m.columns[j]? = some c ∧ c.fixed = none ∧ c.bound = b := by
  obtain ⟨c, hc, hf⟩ := Model.mem_activeColumns.mp hj
  obtain ⟨c₀, h₀, -, hb⟩ := h.grown.column hc
  exact ⟨c, hc, hf, hb.trans (hm c₀ (List.mem_of_getElem? h₀))⟩

/-- At a vertex with all open columns strictly inside their bounds a change of these is none, if no
row without slack notices it. -/
theorem eq_zero_of_vertex (h : Ledger names start m₀ m sink) {b : Bound K}
    (hm : ∀ c ∈ m₀.columns, c.bound = b) {x : List K} (hv : m.system.Vertex x)
    (hopen : ∀ j ∈ m.activeColumns, b.Inside (x.getD j 0)) {d : Nat → K}
    (hd : ∀ j ∉ m.activeColumns, d j = 0)
    (hrow : ∀ r ∈ m.rows, r.relaxed = false →
      r.bound.Inside (weigh r.coefs x) ∨ weights r.coefs d = 0) : d = 0 := by
  refine Model.eq_zero_of_vertex hv (fun j hj => ?_) hrow
  have hj : j ∈ m.activeColumns := by
    by_contra hno
    exact hj (hd j hno)
  obtain ⟨c, hc, hf, hb⟩ := h.open_column hm hj
  exact ⟨c, hc, hf, hb ▸ hopen j hj⟩

theorem closed_column (h : Ledger names start m₀ m sink) {x : List K} (hx : m.Admits x)
    (hj : j < m.columns.length) (hno : j ∉ m.activeColumns) :
    (m.fixedAt j = some 0 ∧ x.getD j 0 = 0) ∨ (m.fixedAt j = some 1 ∧ x.getD j 0 = 1) := by
  obtain ⟨v, hv⟩ := Option.ne_none_iff_exists'.mp fun hn =>
    hno (Model.mem_activeColumns_iff.mpr ⟨hj, hn⟩)
  have hget : x[j]? = some (x.getD j 0) := by simp [hx.length, hj]
  have hval := hx.fixed hv hget
  rcases h.integral j v hv with rfl | rfl
  · exact .inl ⟨hv, hval⟩
  · exact .inr ⟨hv, hval⟩

theorem value_eq (h : Ledger names start m₀ m sink) {x : List K} (hx : m.Admits x)
    (hall : m.activeColumns = []) (hj : j < m.columns.length) :
    (m.fixedAt j = some 0 ∧ x.getD j 0 = 0) ∨ (m.fixedAt j = some 1 ∧ x.getD j 0 = 1) :=
  h.closed_column hx hj (hall ▸ List.not_mem_nil)

theorem sum_ends (h : Ledger names start m₀ m sink) {x : List K} (hx : m.Admits x)
    (hall : m.activeColumns = []) (hlen : names.length = m₀.columns.length) (f : Node × Node → K) :
    ((ends sink.added).map f).sum =
      (names.zipIdx.map fun (e, j) => x.getD j 0 * f (e.u, e.v)).sum := by
  have hp := (h.added_perm.filterMap Choice.ends?).map f
  have hends (k : Fin names.length) :
      Choice.ends? (.edge names[k]) = some (names[k].u, names[k].v) := rfl
  rw [ends, hp.sum_eq, List.filterMap_map, zipIdx_eq_map_finRange, List.map_map]
  simp only [Function.comp_def, hends, List.filterMap_eq_map', List.map_map]
  rw [sum_map_filter]
  congr 1
  refine List.map_congr_left fun k _ => ?_
  have hk : k.val < m.columns.length := by
    rw [h.grown.length, ← hlen]
    exact k.isLt
  rcases h.value_eq hx hall hk with ⟨hf, hv⟩ | ⟨hf, hv⟩
  · rw [List.getD_eq_getElem?_getD] at hv
    simp [hf, hv]
  · rw [List.getD_eq_getElem?_getD] at hv
    simp [hf, hv]

theorem countP_ends (h : Ledger names start m₀ m sink) (f : Node × Node → Bool) :
    (ends sink.added).countP f =
      (Model.positions (fun e => f (e.u, e.v)) names).countP fun j => m.fixedAt j = some 1 := by
  have hp := h.added_perm.filterMap Choice.ends?
  have hends (k : Fin names.length) :
      Choice.ends? (.edge names[k]) = some (names[k].u, names[k].v) := rfl
  rw [ends, hp.countP_eq, List.filterMap_map, Model.positions, zipIdx_eq_map_finRange]
  simp only [Function.comp_def, hends, List.filterMap_eq_map', List.countP_map, List.countP_filter,
    List.filter_map, List.map_map]
  simp [Bool.and_comm]

theorem sum_columns (h : Ledger names start m₀ m sink) {x : List K} (hx : m.Admits x)
    (hall : m.activeColumns = []) {js : List Nat} (hjs : ∀ j ∈ js, j < m.columns.length) :
    (js.map fun j => x.getD j 0).sum = js.countP fun j => m.fixedAt j = some 1 := by
  induction js with
  | nil => simp
  | cons j js ih =>
    rw [List.map_cons, List.sum_cons, List.countP_cons,
      ih fun i hi => hjs i (List.mem_cons_of_mem _ hi)]
    rcases h.value_eq hx hall (hjs j List.mem_cons_self) with ⟨hf, hv⟩ | ⟨hf, hv⟩
    · rw [hv, hf]
      simp
    · rw [hv, hf]
      push_cast
      simp [add_comm]

theorem sum_above {es : List (Edge K)} (h : Ledger (es.map Edge.name) start m₀ m sink) {x : List K}
    (hx : m.Admits x) (hall : m.activeColumns = []) (hlen : es.length = m₀.columns.length)
    {tol : Tolerance K} (h0 : 0 ≤ tol.epsilon) (h1 : tol.epsilon < 1) (f : Node × Node → K) :
    (((es.zipIdx.map fun (e, j) => (e, x.getD j 0)).filter fun e => tol.above e.2 0).map
      fun e => e.2 * f (e.1.name.u, e.1.name.v)).sum = ((ends sink.added).map f).sum := by
  rw [h.sum_ends hx hall (by simpa using hlen), sum_map_filter, List.map_map, List.zipIdx_map,
    List.map_map]
  congr 1
  refine List.map_congr_left fun ⟨e, j⟩ he => ?_
  have hj : j < m.columns.length := by
    rw [h.grown.length, ← hlen]
    simpa using List.snd_lt_of_mem_zipIdx he
  simp only [Function.comp_apply, Prod.map_apply, id_eq, Tolerance.above_iff, zero_add]
  rcases h.value_eq hx hall hj with ⟨-, hv⟩ | ⟨-, hv⟩
  · rw [hv, if_neg (not_lt.mpr h0), zero_mul]
  · rw [hv, if_pos h1]

end Ledger

end LPRounding
