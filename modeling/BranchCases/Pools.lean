import BranchCases.Statement
import BranchCases.Subsets

/-
Pools of parts and the branches that can be put together from them.
-/
namespace BranchCases

/-- The parts on offer for each slot of a branch. A slot takes any subset of its pool,
except `el`, which takes at most one clause. -/
structure Pools where
  pre : List Statement := []
  cond : List Statement := []
  body : List Statement := []
  elbr : List Elbr := []
  el : List (List Statement) := []
  post : List Statement := []

/-- What the `el` slot may hold: no clause, or one of the pool. -/
def alternatives (pool : List (List Statement)) : List (Option (List Statement)) :=
  none :: pool.map some

/-- Every branch with its six slots taken from the six lists, the last slot varying fastest. -/
def combine (pres conds bodies : List (List Statement)) (elbrs : List (List Elbr))
    (els : List (Option (List Statement))) (posts : List (List Statement)) : List Branch :=
  pres.flatMap fun pre => conds.flatMap fun cond => bodies.flatMap fun body =>
    elbrs.flatMap fun elbr => els.flatMap fun el => posts.map fun post =>
      { pre, cond, body, elbr, el, post }

/-- Every branch that the pools allow, whether it can run or not. -/
def Pools.candidates (pools : Pools) : List Branch :=
  combine (subsets pools.pre) (subsets pools.cond) (subsets pools.body) (subsets pools.elbr)
    (alternatives pools.el) (subsets pools.post)

/-- Every clause with condition and body taken from two pools, the body varying fastest. -/
def elbrClauses (cond body : List Statement) : List Elbr :=
  (subsets cond).flatMap fun c => (subsets body).map fun b => { cond := c, body := b }

/-- Every `el` clause over a pool whose body is accepted. -/
def elClauses (body : List Statement) (accept : List Statement → Bool) : List (List Statement) :=
  (subsets body).filter accept

/-- Why a count is not a 64-bit number. -/
inductive CountOverflow where
  /-- Two to the power of 64 or more. -/
  | power
  /-- A product that is too large. -/
  | product
  deriving DecidableEq

def CountOverflow.message : CountOverflow → String
  | .power => "attempt to shift left with overflow"
  | .product => "attempt to multiply with overflow"

/-- The number of subsets of a pool of `n` parts. -/
def subsetCount (n : Nat) : Except CountOverflow Nat :=
  if n < 64 then .ok (Nat.pow 2 n) else .error .power

/-- A product that has to fit in 64 bits. -/
def boundedProduct (m n : Nat) : Except CountOverflow Nat :=
  if m * n < Nat.pow 2 64 then .ok (m * n) else .error .product

/-- The number of candidates, multiplied slot by slot: a factor that overflows counts only
when the product before it did not. -/
def Pools.candidateCount (pools : Pools) : Except CountOverflow Nat := do
  let count ← subsetCount pools.pre.length
  let count ← boundedProduct count (← subsetCount pools.cond.length)
  let count ← boundedProduct count (← subsetCount pools.body.length)
  let count ← boundedProduct count (← subsetCount pools.elbr.length)
  let count ← boundedProduct count (1 + pools.el.length)
  boundedProduct count (← subsetCount pools.post.length)

end BranchCases
