import LPRounding.Proofs.Graph.Joined
import LPRounding.Proofs.Graph.Laminar

/-!
The cuts of a connected list of pairs at each of its pairs, seen from one vertex. The far sides are
nested.
-/

namespace LPRounding

variable {V : Type} {vertices : List V} {pairs : List (V × V)} {root u v w : V} {i j : Nat}

theorem subset_cons_eraseIdx {p : V × V} (hi : pairs[i]? = some p) :
    pairs ⊆ p :: pairs.eraseIdx i := by
  obtain ⟨hlt, rfl⟩ := List.getElem?_eq_some_iff.mp hi
  exact (List.getElem_cons_eraseIdx_perm hlt).symm.subset

def without (pairs : List (V × V)) (i j : Nat) : List (V × V) :=
  (pairs.zipIdx.filter fun e => e.2 ≠ i ∧ e.2 ≠ j).map Prod.fst

theorem mem_without {p : V × V} :
    p ∈ without pairs i j ↔ ∃ k, pairs[k]? = some p ∧ k ≠ i ∧ k ≠ j := by
  simp [without, List.mk_mem_zipIdx_iff_getElem?]

theorem mem_eraseIdx {p : V × V} :
    p ∈ pairs.eraseIdx i ↔ ∃ k, pairs[k]? = some p ∧ k ≠ i := by
  rw [List.mem_eraseIdx_iff_getElem?]
  simp only [and_comm, ne_eq]

variable [DecidableEq V]

open Classical in
/-- The vertices that a pair alone joins to the root. -/
noncomputable def farSide (vertices : List V) (pairs : List (V × V)) (root : V) (i : Nat) :
    Finset V :=
  vertices.toFinset.filter fun v => ¬ Joined (pairs.eraseIdx i) root v

theorem mem_farSide :
    v ∈ farSide vertices pairs root i ↔ v ∈ vertices ∧ ¬ Joined (pairs.eraseIdx i) root v := by
  simp [farSide]

theorem Connected.joined_far (h : Connected vertices pairs) (hroot : root ∈ vertices)
    (hu : u ∈ farSide vertices pairs root i) (hv : v ∈ farSide vertices pairs root i) :
    Joined (pairs.eraseIdx i) u v := by
  obtain ⟨hu, hnu⟩ := mem_farSide.mp hu
  obtain ⟨hv, hnv⟩ := mem_farSide.mp hv
  cases hi : pairs[i]? with
  | none =>
    rw [List.eraseIdx_of_length_le (List.getElem?_eq_none_iff.mp hi)]
    exact h u hu v hv
  | some p =>
    obtain ⟨a, b⟩ := p
    have hsub := subset_cons_eraseIdx hi
    rcases joined_cons.mp ((h root hroot u hu).mono hsub) with h₁ | ⟨h₁, h₁'⟩ | ⟨h₁, h₁'⟩
    · exact absurd h₁ hnu
    · rcases joined_cons.mp ((h root hroot v hv).mono hsub) with h₂ | ⟨-, h₂⟩ | ⟨-, h₂⟩
      · exact absurd h₂ hnv
      · exact h₁'.symm.trans h₂
      · exact absurd (h₁.trans h₂) hnv
    · rcases joined_cons.mp ((h root hroot v hv).mono hsub) with h₂ | ⟨-, h₂⟩ | ⟨-, h₂⟩
      · exact absurd h₂ hnv
      · exact absurd (h₁.trans h₂) hnv
      · exact h₁'.symm.trans h₂

theorem Connected.crosses_iff (h : Connected vertices pairs) (hroot : root ∈ vertices)
    (hu : u ∈ vertices) (hv : v ∈ vertices) :
    Crosses (farSide vertices pairs root i) u v ↔ ¬ Joined (pairs.eraseIdx i) u v := by
  constructor
  · intro hc hj
    refine hc ?_
    rw [mem_farSide, mem_farSide, and_iff_right hu, and_iff_right hv]
    exact not_congr ⟨fun h => h.trans hj, fun h => h.trans hj.symm⟩
  · intro hn hiff
    by_cases hfar : u ∈ farSide vertices pairs root i
    · exact hn (h.joined_far hroot hfar (hiff.mp hfar))
    · have hnear {w : V} (hw : w ∈ vertices) (hn : w ∉ farSide vertices pairs root i) :
          Joined (pairs.eraseIdx i) root w := by
        by_contra hj
        exact hn (mem_farSide.mpr ⟨hw, hj⟩)
      exact hn ((hnear hu hfar).symm.trans (hnear hv fun h => hfar (hiff.mpr h)))

/-- The cuts at two pairs do not cross: of four vertices, one in each quarter, two pairs could not
be joined by the other cut's pair alone. -/
theorem Connected.laminar (h : Connected vertices pairs) (hroot : root ∈ vertices)
    {cuts : Finset Nat} (hcuts : ∀ i ∈ cuts, i < pairs.length) :
    Laminar (farSide vertices pairs root) cuts := by
  intro i hi j hj hij
  by_contra hno
  rw [not_or, not_or, Finset.not_subset, Finset.not_subset, Finset.not_disjoint_iff] at hno
  obtain ⟨⟨v, hvi, hvj⟩, ⟨w, hwj, hwi⟩, u, hui, huj⟩ := hno
  have hw := (mem_farSide.mp hwj).1
  have hv := (mem_farSide.mp hvi).1
  have hnear {i : Nat} {x : V} (hx : x ∈ vertices) (hn : x ∉ farSide vertices pairs root i) :
      Joined (pairs.eraseIdx i) root x := by
    by_contra hj
    exact hn (mem_farSide.mpr ⟨hx, hj⟩)
  obtain ⟨⟨a, b⟩, hget⟩ : ∃ p, pairs[j]? = some p := ⟨_, List.getElem?_eq_getElem (hcuts j hj)⟩
  have hsubi : without pairs i j ⊆ pairs.eraseIdx i := fun p hp => by
    obtain ⟨k, hk, hki, -⟩ := mem_without.mp hp
    exact mem_eraseIdx.mpr ⟨k, hk, hki⟩
  have hsubj : without pairs i j ⊆ pairs.eraseIdx j := fun p hp => by
    obtain ⟨k, hk, -, hkj⟩ := mem_without.mp hp
    exact mem_eraseIdx.mpr ⟨k, hk, hkj⟩
  have hcover : pairs.eraseIdx i ⊆ (a, b) :: without pairs i j := fun p hp => by
    obtain ⟨k, hk, hki⟩ := mem_eraseIdx.mp hp
    by_cases hkj : k = j
    · subst hkj
      obtain rfl := Option.some.inj (hget.symm.trans hk)
      exact List.mem_cons_self
    · exact List.mem_cons_of_mem _ (mem_without.mpr ⟨k, hk, hki, hkj⟩)
  have hab : Joined (pairs.eraseIdx i) a b :=
    Adjacent.joined (.inl (mem_eraseIdx.mpr ⟨j, hget, Ne.symm hij⟩))
  -- vertices that the cut at `j` parts are joined across the pair at `j` only
  have hmeet {x y : V} (hxy : Joined (pairs.eraseIdx i) x y)
      (hn : ¬ Joined (pairs.eraseIdx j) x y) : Joined (pairs.eraseIdx i) x a := by
    rcases joined_cons.mp (hxy.mono hcover) with h | ⟨h, -⟩ | ⟨h, -⟩
    · exact absurd (h.mono hsubj) hn
    · exact h.mono hsubi
    · exact (h.mono hsubi).trans hab.symm
  have hua := hmeet (h.joined_far hroot hui hvi) fun huv =>
    (mem_farSide.mp huj).2 ((hnear hv hvj).trans huv.symm)
  have hra := hmeet (hnear hw hwi) (mem_farSide.mp hwj).2
  exact (mem_farSide.mp hui).2 (hra.trans hua.symm)

end LPRounding
