import BranchCases.Subsets
import Mathlib.Algebra.Group.Nat.Defs
import Mathlib.Data.List.Flatten
import Mathlib.Data.List.Sublists

/-
Subsets of a pool. Main results: they are its sublists, each as often as there are choices of
positions for it, and a longer pool has the subsets of a shorter one among its own in the same
order.
-/
namespace BranchCases

variable {α : Type}

/-- The same ways are enumerated from the last to the first when those come first that leave
the earlier elements out. -/
theorem choose_eq_reverse_sublistsLen (k : Nat) (pool : List α) :
    choose k pool = (pool.sublistsLen k).reverse := by
  induction pool generalizing k with
  | nil =>
      cases k with
      | zero => rfl
      | succ k => rw [List.sublistsLen_succ_nil]; rfl
  | cons a rest ih =>
      cases k with
      | zero => rw [List.sublistsLen_zero]; rfl
      | succ k =>
          -- The ways that keep `a` come first on one side and last on the other.
          rw [choose, ih, ih, List.sublistsLen_succ_cons, List.reverse_append, List.map_reverse]

theorem choose_sublist (k : Nat) {pool larger : List α} (h : pool.Sublist larger) :
    (choose k pool).Sublist (choose k larger) := by
  rw [choose_eq_reverse_sublistsLen, choose_eq_reverse_sublistsLen]
  exact (List.sublistsLen_sublist_of_sublist k h).reverse

theorem choose_perm_sublistsLen (k : Nat) (pool : List α) :
    (choose k pool).Perm (pool.sublistsLen k) := by
  rw [choose_eq_reverse_sublistsLen]
  exact List.reverse_perm _

theorem mem_choose {k : Nat} {chosen pool : List α} :
    chosen ∈ choose k pool ↔ chosen.Sublist pool ∧ chosen.length = k := by
  rw [(choose_perm_sublistsLen k pool).mem_iff, List.mem_sublistsLen]

theorem length_choose (k : Nat) (pool : List α) :
    (choose k pool).length = pool.length.choose k := by
  rw [(choose_perm_sublistsLen k pool).length_eq, List.length_sublistsLen]

theorem choose_length (pool : List α) : choose pool.length pool = [pool] := by
  rw [choose_eq_reverse_sublistsLen, List.sublistsLen_length, List.reverse_singleton]

/-- More to choose from: the old subsets stand among the new ones in their old order. -/
theorem subsets_sublist {pool larger : List α} (h : pool.Sublist larger) :
    (subsets pool).Sublist (subsets larger) := by
  have hsizes : (List.range (pool.length + 1)).Sublist (List.range (larger.length + 1)) :=
    List.range_sublist.mpr (Nat.succ_le_succ h.length_le)
  refine (hsizes.flatMap _).trans (List.Sublist.flatMap_right _ ?_)
  intro k _
  exact choose_sublist k h

theorem subsets_perm_sublists' (pool : List α) : (subsets pool).Perm pool.sublists' := by
  have hsizes := List.Perm.flatMap_left (List.range (pool.length + 1))
    fun k _ => choose_perm_sublistsLen k pool
  exact hsizes.trans (List.range_bind_sublistsLen_perm pool)

theorem length_subsets (pool : List α) : (subsets pool).length = 2 ^ pool.length := by
  rw [(subsets_perm_sublists' pool).length_eq, List.length_sublists']

theorem mem_subsets {chosen pool : List α} : chosen ∈ subsets pool ↔ chosen.Sublist pool := by
  rw [(subsets_perm_sublists' pool).mem_iff, List.mem_sublists']

theorem nodup_subsets {pool : List α} (h : pool.Nodup) : (subsets pool).Nodup := by
  rw [(subsets_perm_sublists' pool).nodup_iff, List.nodup_sublists']
  exact h

end BranchCases
