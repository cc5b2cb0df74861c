import BranchCases.Named
import BranchCases.Selection

/-
Suites of tests, and the branches that a suite nests in one another.
-/
namespace BranchCases

/-- The suites that can be asked for. -/
inductive Suite where
  | brSolo | brEl | brElbr | brElbrEl
  deriving DecidableEq

instance : Named Suite where
  all := [.brSolo, .brEl, .brElbr, .brElbrEl]
  name
    | .brSolo => "br_solo"
    | .brEl => "br_el"
    | .brElbr => "br_elbr"
    | .brElbrEl => "br_elbr_el"

def Suite.name (suite : Suite) : String :=
  Named.name suite

/-- The branches that a suite nests: each inner one goes into each outer one. -/
structure Families where
  inner : Selection
  outer : Selection

/-- The outer branches of every suite: conditions over a number and both truth values. -/
def enclosingPools : Pools where
  cond := pushes [.int 1111, .bool true, .bool false]

/-- The inner branches: a condition that may rest on what stands before the branch. -/
def enclosedPools : Pools where
  pre := pushes [.int 5678]
  cond := pushes [.bool true, .bool false]
  body := pushes [.int 2222]
  post := pushes [.int 8765]

/-- The inner branches with an `el` clause on offer. -/
def enclosedElPools : Pools :=
  { enclosedPools with
    el := elClauses (pushes [.int 3333]) fun body => !body.isEmpty }

/-- The families of a suite, if it has a generator. -/
def Suite.families? : Suite → Option Families
  | .brSolo => some {
      inner := enclosedPools.select fun b => !b.body.isEmpty
      outer := enclosingPools.select fun _ => true }
  | .brEl => some {
      inner := enclosedElPools.select fun b => !b.body.isEmpty && b.el.isSome
      outer := enclosingPools.select fun _ => true }
  | .brElbr | .brElbrEl => none

/-- Whether a suite has a generator. -/
def Suite.isImplemented : Suite → Bool
  | .brSolo | .brEl => true
  | .brElbr | .brElbrEl => false

/-- The implemented suites are those that have families of branches. -/
theorem Suite.isSome_families? (suite : Suite) : suite.families?.isSome = suite.isImplemented := by
  cases suite <;> rfl

end BranchCases
