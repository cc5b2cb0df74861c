/-
Subsets of a pool, as selections of positions: elements keep the order of the pool,
and equal elements at different positions count as different.
-/
namespace BranchCases

/-- Every way to keep `k` elements of a list; ways that keep an earlier element come first. -/
def choose {α : Type} : Nat → List α → List (List α)
  | 0, _ => [[]]
  | _ + 1, [] => []
  | k + 1, a :: rest => (choose k rest).map (a :: ·) ++ choose (k + 1) rest

/-- Every subset of the pool, smaller ones first, those of one size in the order of `choose`. -/
def subsets {α : Type} (pool : List α) : List (List α) :=
  (List.range (pool.length + 1)).flatMap (choose · pool)

end BranchCases
