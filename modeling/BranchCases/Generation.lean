import BranchCases.Assertion
import BranchCases.Graft
import BranchCases.Sink
import BranchCases.Suite

/-
Generation: the test lines of a suite, every inner branch nested in every outer one, are
written to a sink that may run out of room.
-/
namespace BranchCases

/-- The line that stands for a suite without a generator. -/
def unimplementedNotice : String :=
  "UNIMPLEMENTED, PLEASE CALL 1-800-R-U-SLAPPIN FOR ASSISTANCE"

/-- How test lines are written and which of them, by the source of their branch. -/
structure GenerateOptions where
  format : Format := .test
  grep : Option (String → Bool) := none

def GenerateOptions.admits (options : GenerateOptions) (source : String) : Bool :=
  match options.grep with
  | none => true
  | some wanted => wanted source

/-- Why generation stopped. -/
inductive GenerateError where
  | write (cause : WriteError)
  | flow (cause : FlowError)
  deriving DecidableEq

def GenerateError.message : GenerateError → String
  | .write cause => "failed to write generated tests: " ++ cause.message
  | .flow cause => "candidate lost its flow after validation: " ++ cause.message

/-- What generation did. -/
inductive Outcome where
  | generated (emitted : Nat)
  | unimplemented
  deriving DecidableEq

/-- Write one line with its line break. -/
def emitLine (line : String) : EStateM GenerateError Sink Unit :=
  EStateM.adaptExcept .write (Sink.write (line ++ "\n").toUTF8)

/-- Emit the test line of a branch unless its source is not wanted; count the lines. -/
def emitTest (options : GenerateOptions) (emitted : Nat) (b : Branch) :
    EStateM GenerateError Sink Nat :=
  if options.admits b.source then
    match b.flow with
    | .error error => throw (.flow error)
    | .ok expected => do
      emitLine (testLine options.format b expected)
      pure (emitted + 1)
  else
    pure emitted

/-- Emit the test lines of all inner branches nested in all outer ones. -/
def emitGrafts (options : GenerateOptions) (outers inners : List Branch) :
    EStateM GenerateError Sink Nat :=
  (grafts outers inners).foldlM (emitTest options) 0

/-- The end of a run of the generator: outcome, sink and log. -/
structure Generation where
  outcome : Except GenerateError Outcome
  sink : Sink
  log : List Record

/-- The span of a run of the generator. -/
def Suite.span (suite : Suite) : Span where
  level := .debug
  target := "sbl_brgen::suite"
  name := "generate"
  fields := [⟨"suite", suite.name, true⟩]

/-- The closing record of a suite that was generated. -/
def generatedEvent (emitted : Nat) : Event where
  level := .info
  target := "sbl_brgen::suite"
  message := "generated suite"
  fields := [⟨"emitted", emitted.repr, false⟩]

/-- Write the lines of a suite to a sink. The inner branches are selected before the outer
ones; the closing record is absent when writing fails. -/
def generate (suite : Suite) (options : GenerateOptions) (sink : Sink) : Generation :=
  let entered := Record.entered suite.span
  let record := Record.event (some suite.span)
  match suite.families? with
  | none =>
    match (emitLine unimplementedNotice).run sink with
    | .ok () sink => ⟨.ok .unimplemented, sink, [entered]⟩
    | .error error sink => ⟨.error error, sink, [entered]⟩
  | some ⟨inner, outer⟩ =>
    let selected := entered :: (inner.log ++ outer.log).toList.map record
    match (emitGrafts options outer.kept.toList inner.kept.toList).run sink with
    | .ok emitted sink =>
      ⟨.ok (.generated emitted), sink, selected ++ [record (generatedEvent emitted)]⟩
    | .error error sink => ⟨.error error, sink, selected⟩

end BranchCases
