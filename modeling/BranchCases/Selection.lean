import BranchCases.Flow
import BranchCases.Log
import BranchCases.Pools

/-
Selection of branches from pools: the valid candidates that an acceptance test lets through.
-/
namespace BranchCases

/-- What a selection has seen and kept so far. -/
structure Selection where
  raw : Nat := 0
  valid : Nat := 0
  kept : Array Branch := #[]
  log : Array Event := #[]

/-- The record of a candidate that cannot run. -/
def FlowError.rejection (error : FlowError) : Event where
  level := .trace
  target := "sbl_brgen::interpreter"
  message := "rejecting candidate"
  fields := [⟨"err", error.message, false⟩, ⟨"code", error.code, true⟩]

/-- The closing record of a selection. -/
def Selection.summary (s : Selection) : Event where
  level := .debug
  target := "sbl_brgen::enumerate"
  message := "enumerated br candidates"
  fields :=
    [⟨"raw", s.raw.repr, false⟩, ⟨"valid", s.valid.repr, false⟩, ⟨"kept", s.kept.size.repr, false⟩]

/-- Look whether a branch is valid; one that is not leaves a record. -/
def Branch.check (b : Branch) : Bool × Option Event :=
  match b.flow with
  | .ok _ => (true, none)
  | .error error => (false, some error.rejection)

/-- Look at one candidate; only a valid one is put to the acceptance test. -/
def Selection.examine {m : Type → Type} [Monad m] (accept : Branch → m Bool) (s : Selection)
    (candidate : Branch) : m Selection := do
  let (valid, record) := candidate.check
  let seen := { s with raw := s.raw + 1, log := s.log ++ record.toArray }
  if valid then
    let seen := { seen with valid := seen.valid + 1 }
    if ← accept candidate then
      pure { seen with kept := seen.kept.push candidate }
    else
      pure seen
  else
    pure seen

/-- Put the candidates of the pools in order to an acceptance test that may have effects. -/
def Pools.selectM {m : Type → Type} [Monad m] (pools : Pools) (accept : Branch → m Bool) :
    m Selection := do
  let s ← pools.candidates.foldlM (Selection.examine accept) {}
  pure { s with log := s.log.push s.summary }

/-- The selection of a pure acceptance test. -/
def Pools.select (pools : Pools) (accept : Branch → Bool) : Selection :=
  Id.run (pools.selectM fun candidate => pure (accept candidate))

/-- The branches that a selection keeps. -/
def Pools.kept (pools : Pools) (accept : Branch → Bool) : List Branch :=
  (pools.select accept).kept.toList

end BranchCases
