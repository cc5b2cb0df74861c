import BranchCases.Proofs.Choosing
import Mathlib.Data.Finset.Sort
import Mathlib.Data.List.Forall2
import Mathlib.Data.List.Lex

/-
Subsets of a pool by the places of their parts. Main result: the subsets go through the rising lists
of places, each set of places once, shorter lists first and lists of one length in lexicographic
order, so that the subsets of one size stand together.
-/
namespace BranchCases

/-- Places in a list of length `n`, from the first to the last. -/
structure Rising (n : Nat) (places : List Nat) : Prop where
  increasing : places.Pairwise (· < ·)
  below : ∀ i ∈ places, i < n

/-- Fewer places come first; of as many, the earlier one where the two lists part. -/
def Precedes (first second : List Nat) : Prop :=
  first.length < second.length ∨ (first.length = second.length ∧ first < second)

variable {α β : Type}

def StandAt (pool : List α) (places : List Nat) (parts : List α) : Prop :=
  List.Forall₂ (fun i part => pool[i]? = some part) places parts

/-! ## Choices that correspond -/

theorem forall₂_choose {R : α → β → Prop} {xs : List α} {ys : List β} (h : List.Forall₂ R xs ys)
    (k : Nat) : List.Forall₂ (List.Forall₂ R) (choose k xs) (choose k ys) := by
  induction h generalizing k with
  | nil =>
      cases k with
      | zero => exact .cons .nil .nil
      | succ k => exact .nil
  | cons hfirst hrest ih =>
      cases k with
      | zero => exact .cons .nil .nil
      | succ k =>
          apply List.rel_append
          · apply List.rel_map
            · intro chosen chosen' hchosen
              exact .cons hfirst hchosen
            · exact ih k
          · exact ih (k + 1)

theorem forall₂_subsets {R : α → β → Prop} {xs : List α} {ys : List β}
    (h : List.Forall₂ R xs ys) : List.Forall₂ (List.Forall₂ R) (subsets xs) (subsets ys) := by
  have hsizes : List.Forall₂ (· = ·) (List.range (xs.length + 1)) (List.range (ys.length + 1)) := by
    rw [h.length_eq]
    exact List.forall₂_refl _
  apply List.rel_flatMap hsizes
  rintro k _ rfl
  exact forall₂_choose h k

theorem standAt_range (pool : List α) : StandAt pool (List.range pool.length) pool := by
  refine List.forall₂_iff_get.mpr ⟨List.length_range, ?_⟩
  intro i hi hi'
  simp

/-- A subset of the pool stands where the subset of the places with its number says. -/
theorem standAt_subsets (pool : List α) :
    List.Forall₂ (StandAt pool) (subsets (List.range pool.length)) (subsets pool) :=
  forall₂_subsets (standAt_range pool)

/-! ## Rising lists of places -/

theorem rising_iff_sublist {n : Nat} {places : List Nat} :
    Rising n places ↔ places.Sublist (List.range n) := by
  constructor
  · intro h
    have hmem : places ⊆ List.range n := fun i hi => List.mem_range.mpr (h.below i hi)
    have hnodup : places.Nodup := h.increasing.imp Nat.ne_of_lt
    exact List.sublist_of_subperm_of_pairwise (List.subperm_of_subset hnodup hmem)
      (h.increasing.imp Nat.le_of_lt) (List.pairwise_lt_range.imp Nat.le_of_lt)
  · intro h
    exact ⟨List.pairwise_lt_range.sublist h, fun i hi => List.mem_range.mp (h.subset hi)⟩

theorem mem_subsets_range {n : Nat} {places : List Nat} :
    places ∈ subsets (List.range n) ↔ Rising n places := by
  rw [mem_subsets, rising_iff_sublist]

theorem exists_rising_of_sublist {parts pool : List α} (h : parts.Sublist pool) :
    ∃ places, Rising pool.length places ∧ StandAt pool places parts := by
  obtain ⟨k, hk, rfl⟩ := List.mem_iff_getElem.mp (mem_subsets.mpr h)
  obtain ⟨hlength, hstand⟩ := List.forall₂_iff_get.mp (standAt_subsets pool)
  have hk' : k < (subsets (List.range pool.length)).length := hlength ▸ hk
  exact ⟨_, mem_subsets_range.mp (List.getElem_mem hk'), hstand k hk' hk⟩

theorem rising_sort {n : Nat} {set : Finset Nat} (h : set ⊆ Finset.range n) :
    Rising n set.sort := by
  refine ⟨set.sortedLT_sort.pairwise, ?_⟩
  intro i hi
  exact Finset.mem_range.mp (h ((Finset.mem_sort _).mp hi))

theorem Rising.eq_of_toFinset_eq {n : Nat} {places places' : List Nat} (h : Rising n places)
    (h' : Rising n places') (hset : places.toFinset = places'.toFinset) : places = places' := by
  apply h.increasing.eq_of_mem_iff h'.increasing
  intro i
  rw [← List.mem_toFinset, hset, List.mem_toFinset]

theorem count_toFinset_subsets_range {n : Nat} {set : Finset Nat} (h : set ⊆ Finset.range n) :
    ((subsets (List.range n)).map List.toFinset).count set = 1 := by
  have hnodup : ((subsets (List.range n)).map List.toFinset).Nodup := by
    apply List.Nodup.map_on
    · intro places hplaces places' hplaces' hset
      exact (mem_subsets_range.mp hplaces).eq_of_toFinset_eq (mem_subsets_range.mp hplaces') hset
    · exact nodup_subsets List.nodup_range
  have hmem : set ∈ (subsets (List.range n)).map List.toFinset :=
    List.mem_map.mpr ⟨_, mem_subsets_range.mpr (rising_sort h), set.sort_toFinset _⟩
  exact List.count_eq_one_of_mem hnodup hmem

/-! ## Order -/

/-- The choices that keep the first place come before those that do not. -/
theorem pairwise_lt_choose {pool : List Nat} (h : pool.Pairwise (· < ·)) (k : Nat) :
    (choose k pool).Pairwise (· < ·) := by
  induction pool generalizing k with
  | nil =>
      cases k with
      | zero => exact List.pairwise_singleton _ _
      | succ k => exact .nil
  | cons i rest ih =>
      obtain ⟨hi, hrest⟩ := List.pairwise_cons.mp h
      cases k with
      | zero => exact List.pairwise_singleton _ _
      | succ k =>
          refine List.pairwise_append.mpr ⟨?_, ih hrest (k + 1), ?_⟩
          · refine List.pairwise_map.mpr ((ih hrest k).imp ?_)
            intro first second hlt
            exact List.cons_lt_cons_self.mpr hlt
          · intro first hfirst second hsecond
            obtain ⟨kept, -, rfl⟩ := List.mem_map.mp hfirst
            obtain ⟨hsublist, hlength⟩ := mem_choose.mp hsecond
            cases second with
            | nil => cases hlength
            | cons j others =>
                have hj : j ∈ rest := hsublist.subset List.mem_cons_self
                exact List.Lex.rel (hi j hj)

theorem pairwise_precedes_subsets_range (n : Nat) :
    (subsets (List.range n)).Pairwise Precedes := by
  refine List.pairwise_flatMap.mpr ⟨?_, List.pairwise_lt_range.imp ?_⟩
  · intro k _
    refine (pairwise_lt_choose List.pairwise_lt_range k).imp_of_mem ?_
    intro first second hfirst hsecond hlt
    have hlength := (mem_choose.mp hfirst).2.trans (mem_choose.mp hsecond).2.symm
    exact Or.inr ⟨hlength, hlt⟩
  · intro k k' hlt first hfirst second hsecond
    rw [← (mem_choose.mp hfirst).2, ← (mem_choose.mp hsecond).2] at hlt
    exact Or.inl hlt

/-! ## Blocks -/

theorem head?_subsets (pool : List α) : (subsets pool).head? = some [] := by
  rw [subsets, List.range_succ_eq_map, List.flatMap_cons, choose, List.singleton_append,
    List.head?_cons]

theorem getLast?_subsets (pool : List α) : (subsets pool).getLast? = some pool := by
  rw [subsets, List.range_succ, List.flatMap_append, List.flatMap_singleton, choose_length,
    List.getLast?_concat]

/-- The subsets of one size stand together, behind the smaller ones and before the larger ones. -/
theorem exists_block (pool : List α) (k : Nat) :
    ∃ before block after, subsets pool = before ++ block ++ after ∧
      block.length = pool.length.choose k ∧ (∀ chosen ∈ before, chosen.length < k) ∧
      (∀ chosen ∈ block, chosen.length = k) ∧ ∀ chosen ∈ after, k < chosen.length := by
  by_cases hk : k ≤ pool.length
  · obtain ⟨more, hmore⟩ := Nat.exists_eq_add_of_le hk
    have hsizes : List.range (pool.length + 1) =
        List.range k ++ k :: (List.range more).map (k + 1 + ·) := by
      rw [hmore, Nat.add_right_comm, List.range_add, List.range_succ, List.append_assoc,
        List.singleton_append]
    refine ⟨(List.range k).flatMap (choose · pool), choose k pool,
      ((List.range more).map (k + 1 + ·)).flatMap (choose · pool), ?_, length_choose k pool,
      ?_, ?_, ?_⟩
    · rw [subsets, hsizes, List.flatMap_append, List.flatMap_cons, List.append_assoc]
    · intro chosen hchosen
      obtain ⟨size, hsize, hmem⟩ := List.mem_flatMap.mp hchosen
      rw [(mem_choose.mp hmem).2]
      exact List.mem_range.mp hsize
    · intro chosen hchosen
      exact (mem_choose.mp hchosen).2
    · intro chosen hchosen
      obtain ⟨size, hsize, hmem⟩ := List.mem_flatMap.mp hchosen
      obtain ⟨i, -, rfl⟩ := List.mem_map.mp hsize
      rw [(mem_choose.mp hmem).2]
      omega
  · have hlarge : pool.length < k := Nat.lt_of_not_le hk
    refine ⟨subsets pool, [], [], ?_, (Nat.choose_eq_zero_of_lt hlarge).symm, ?_, ?_, ?_⟩
    · rw [List.append_nil, List.append_nil]
    · intro chosen hchosen
      exact (mem_subsets.mp hchosen).length_le.trans_lt hlarge
    · exact List.forall_mem_nil _
    · exact List.forall_mem_nil _

/-- The subsets of a pool are those of its places, in their order: every list of places rises, every
set of places comes once, and each list precedes all that come after it. So the empty subset is the
first and the pool the last, and there is one block of subsets for each size. -/
theorem subsets_by_places (pool : List α) :
    (∃ choices : List (List Nat),
      List.Forall₂ (StandAt pool) choices (subsets pool) ∧
      choices.length = 2 ^ pool.length ∧
      (∀ places, places ∈ choices ↔ Rising pool.length places) ∧
      (∀ set : Finset Nat, set ⊆ Finset.range pool.length →
        (choices.map List.toFinset).count set = 1) ∧
      choices.Pairwise Precedes) ∧
    (subsets pool).head? = some [] ∧ (subsets pool).getLast? = some pool ∧
    ∀ k, ∃ before block after, subsets pool = before ++ block ++ after ∧
      block.length = pool.length.choose k ∧ (∀ chosen ∈ before, chosen.length < k) ∧
      (∀ chosen ∈ block, chosen.length = k) ∧ ∀ chosen ∈ after, k < chosen.length := by
  refine ⟨⟨subsets (List.range pool.length), standAt_subsets pool, ?_, ?_, ?_, ?_⟩,
    head?_subsets pool, getLast?_subsets pool, exists_block pool⟩
  · rw [length_subsets, List.length_range]
  · intro places
    exact mem_subsets_range
  · intro set hset
    exact count_toFinset_subsets_range hset
  · exact pairwise_precedes_subsets_range pool.length

theorem subsets_by_places_repeated :
    ({0, 2} : Finset Nat) ⊆ Finset.range 3 ∧
      (∃ choices : List (List Nat),
        List.Forall₂ (StandAt ["a", "b", "a"]) choices (subsets ["a", "b", "a"]) ∧
        [0, 2] ∈ choices ∧ (choices.map List.toFinset).count {0, 2} = 1) ∧
      ∃ before block after, subsets ["a", "b", "a"] = before ++ block ++ after ∧
        block.length = 3 ∧ ∀ chosen ∈ block, chosen.length = 2 := by
  have hset : ({0, 2} : Finset Nat) ⊆ Finset.range 3 := by decide
  obtain ⟨⟨choices, hstand, -, hrising, hcount, -⟩, -, -, hblocks⟩ :=
    subsets_by_places ["a", "b", "a"]
  obtain ⟨before, block, after, hsplit, hlength, -, hblock, -⟩ := hblocks 2
  have hplaces : Rising 3 [0, 2] := ⟨by decide, by decide⟩
  exact ⟨hset, ⟨choices, hstand, (hrising [0, 2]).mpr hplaces, hcount {0, 2} hset⟩,
    before, block, after, hsplit, hlength, hblock⟩

example : subsets ["a", "b", "a"] =
    [[], ["a"], ["b"], ["a"], ["a", "b"], ["a", "a"], ["b", "a"], ["a", "b", "a"]] := by
  rfl

end BranchCases
