import LPRounding.Proofs.Graph.Route

/-!
Trees and paths across their edges. The path between two vertices of a tree goes along an edge
exactly when the tree without that edge leaves them apart; chords whose paths go along every edge
leave no edge whose loss would part the vertices.
-/

namespace LPRounding

variable {V : Type} {pairs : List (V × V)} {f : V × V} {a b u v : V} {i : Nat} {path : List V}

def Along (f : V × V) (path : List V) : Prop :=
  ∃ pre a b post, path = pre ++ a :: b :: post ∧ ((a, b) = f ∨ (b, a) = f)

theorem mem_eraseIdx_of_ne (hi : pairs[i]? = some f) {e : V × V} (he : e ∈ pairs) (hne : e ≠ f) :
    e ∈ pairs.eraseIdx i := by
  obtain ⟨k, hk, rfl⟩ := List.getElem_of_mem he
  refine List.mem_eraseIdx_iff_getElem.mpr ⟨k, hk, ?_, rfl⟩
  rintro rfl
  exact hne (Option.some.inj ((List.getElem?_eq_getElem hk).symm.trans hi))

theorem Adjacent.eraseIdx (h : Adjacent pairs a b) (hi : pairs[i]? = some f) (hab : (a, b) ≠ f)
    (hba : (b, a) ≠ f) : Adjacent (pairs.eraseIdx i) a b := by
  rcases h with h | h
  · exact .inl (mem_eraseIdx_of_ne hi h hab)
  · exact .inr (mem_eraseIdx_of_ne hi h hba)

theorem joined_of_chain_avoiding {w : V} (hc : path.IsChain (Adjacent pairs))
    (hi : pairs[i]? = some f) (hw : w ∉ path) (hf : w = f.1 ∨ w = f.2)
    (ha : path.head? = some a) (hb : b ∈ path) : Joined (pairs.eraseIdx i) a b := by
  refine joined_of_chain (hc.imp_of_mem_imp fun c d hc hd hcd => ?_) ha hb
  have hno {c d : V} (hc : c ∈ path) (hd : d ∈ path) : (c, d) ≠ f := by
    rintro rfl
    rcases hf with rfl | rfl
    · exact hw hc
    · exact hw hd
  exact hcd.eraseIdx hi (hno hc hd) (hno hd hc)

theorem IsPath.joined_of_not_along (h : IsPath pairs u v path) (hi : pairs[i]? = some f)
    (hn : ¬ Along f path) : Joined (pairs.eraseIdx i) u v := by
  have hchain : path.IsChain (Adjacent (pairs.eraseIdx i)) := by
    rw [List.isChain_iff_forall_rel_of_append_cons_cons]
    intro a b pre post heq
    have hab := List.isChain_iff_forall_rel_of_append_cons_cons.mp h.steps heq
    refine hab.eraseIdx hi ?_ ?_
    · exact fun hf => hn ⟨pre, a, b, post, heq, .inl hf⟩
    · exact fun hf => hn ⟨pre, a, b, post, heq, .inr hf⟩
  exact joined_of_chain hchain h.head (List.mem_of_getLast? h.last)

theorem IsPath.joined_of_along (h : IsPath pairs u v path) (hi : pairs[i]? = some (a, b))
    (ha : Along (a, b) path) :
    (Joined (pairs.eraseIdx i) u a ∧ Joined (pairs.eraseIdx i) b v) ∨
      (Joined (pairs.eraseIdx i) u b ∧ Joined (pairs.eraseIdx i) a v) := by
  obtain ⟨pre, c, d, post, rfl, hf⟩ := ha
  have hsplit : pre ++ c :: d :: post = (pre ++ [c]) ++ d :: post := by simp
  have hnd := h.nodup
  have hsteps := h.steps
  have hhead := h.head
  have hlast := h.last
  rw [hsplit] at hnd hsteps hhead hlast
  obtain ⟨-, -, hdis⟩ := List.nodup_append.mp hnd
  have hc : c ∈ pre ++ [c] := by simp
  have hd : d ∈ d :: post := List.mem_cons_self
  have hv : v ∈ d :: post := by
    rw [List.getLast?_append_of_ne_nil _ (List.cons_ne_nil d post)] at hlast
    exact List.mem_of_getLast? hlast
  have hhead : (pre ++ [c]).head? = some u := by
    rw [List.head?_append_of_ne_nil _ (by simp)] at hhead
    exact hhead
  have hcf : c = a ∨ c = b := by
    rcases hf with hf | hf
    · exact .inl (congrArg Prod.fst hf)
    · exact .inr (congrArg Prod.snd hf)
  have hdf : d = a ∨ d = b := by
    rcases hf with hf | hf
    · exact .inr (congrArg Prod.snd hf)
    · exact .inl (congrArg Prod.fst hf)
  have huc := joined_of_chain_avoiding hsteps.left_of_append hi
    (fun hm => hdis d hm d hd rfl) hdf hhead hc
  have hdv := joined_of_chain_avoiding hsteps.right_of_append hi
    (fun hm => hdis c hc c hm rfl) hcf rfl hv
  rcases hf with hf | hf
  · obtain ⟨rfl, rfl⟩ := Prod.mk.inj hf
    exact .inl ⟨huc, hdv⟩
  · obtain ⟨rfl, rfl⟩ := Prod.mk.inj hf
    exact .inr ⟨huc, hdv⟩

/-- In a tree the path between two vertices goes along just those edges that part them. -/
theorem IsPath.along_iff (h : IsPath pairs u v path) (hac : Acyclic pairs)
    (hi : pairs[i]? = some f) : Along f path ↔ ¬ Joined (pairs.eraseIdx i) u v := by
  constructor
  · intro ha hj
    obtain ⟨a, b⟩ := f
    rcases h.joined_of_along hi ha with ⟨hua, hbv⟩ | ⟨hub, hav⟩
    · exact hac i a b hi ((hua.symm.trans hj).trans hbv.symm)
    · exact hac i a b hi ((hav.trans hj.symm).trans hub)
  · intro hj
    by_contra hn
    exact hj (h.joined_of_not_along hi hn)

/-- Chords over every edge of a tree leave it connected when any edge or chord is lost. -/
theorem Connected.eraseIdx_append {vertices : List V} {chords : List (V × V)}
    (h : Connected vertices pairs)
    (hcover : ∀ (i : Nat) f, pairs[i]? = some f →
      ∃ e ∈ chords, ∃ path, IsPath pairs e.1 e.2 path ∧ Along f path) (i : Nat) : Connected vertices ((pairs ++ chords).eraseIdx i) := by
  intro x hx y hy
  by_cases hi : i < pairs.length
  · have hf := List.getElem?_eq_getElem hi
    obtain ⟨e, he, path, hpath, halong⟩ := hcover i _ hf
    rw [List.eraseIdx_append_of_lt_length hi]
    have hrest : pairs.eraseIdx i ⊆ pairs.eraseIdx i ++ chords := List.subset_append_left _ _
    have hchord : Joined (pairs.eraseIdx i ++ chords) e.1 e.2 :=
      .single (.inl (List.mem_append_right _ he))
    -- the ends of the lost edge are still joined, around by the chord
    have hends : Joined (pairs.eraseIdx i ++ chords) pairs[i].1 pairs[i].2 := by
      rcases hpath.joined_of_along hf halong with ⟨h₁, h₂⟩ | ⟨h₁, h₂⟩
      · exact ((h₁.mono hrest).symm.trans hchord).trans (h₂.mono hrest).symm
      · exact Joined.symm (((h₁.mono hrest).symm.trans hchord).trans (h₂.mono hrest).symm)
    refine (h x hx y hy).of_adjacent fun a b hab => ?_
    have hkeep {a b : V} (hm : (a, b) ∈ pairs) : Joined (pairs.eraseIdx i ++ chords) a b := by
      by_cases heq : (a, b) = pairs[i]
      · rw [← heq] at hends
        exact hends
      · exact .single (.inl (hrest (mem_eraseIdx_of_ne hf hm heq)))
    rcases hab with hm | hm
    · exact hkeep hm
    · exact (hkeep hm).symm
  · rw [List.eraseIdx_append_of_length_le (by omega)]
    exact (h x hx y hy).mono (List.subset_append_left _ _)

end LPRounding
