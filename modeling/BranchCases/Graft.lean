import BranchCases.Statement

/-
Branches nested in branches: an inner branch takes the place of an outer one's body.
-/
namespace BranchCases

/-- The outer branch with the inner one as its whole body. -/
def Branch.graft (outer inner : Branch) : Branch :=
  outer.withBody [.branch inner]

/-- Graft into each of the outer branches in turn, the first of them innermost. -/
def Branch.graftThrough (inner : Branch) (outers : List Branch) : Branch :=
  outers.foldl (fun current outer => outer.graft current) inner

/-- Every inner branch in every outer one, the inner ones varying fastest. -/
def grafts (outers inners : List Branch) : List Branch :=
  outers.flatMap fun outer => inners.map outer.graft

end BranchCases
