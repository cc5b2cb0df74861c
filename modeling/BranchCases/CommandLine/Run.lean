import BranchCases.CommandLine.Help

/-
A run of the program: what it leaves on its two outputs, and its exit code.
-/
namespace BranchCases.CommandLine

/-- The device behind standard output. -/
inductive Device where
  | working
  /-- Every write is refused. -/
  | full
  deriving DecidableEq

/-- The number of bytes that are held back before a write reaches the device. -/
def bufferSize : Nat := 8192

/-- The sink in front of a device. The first bytes for a full device are taken by the buffer. -/
def Device.sink : Device → Sink
  | .working => {}
  | .full => { limit := some bufferSize, refusal := .deviceFull }

/-- What arrives on the device. -/
def Device.deliver : Device → ByteArray → ByteArray
  | .working, bytes => bytes
  | .full, _ => .empty

/-- Empty the buffer at the end; without any bytes no write is made. -/
def Device.flush (device : Device) (sink : Sink) : Except GenerateError Unit :=
  if device = .full ∧ sink.written.size ≠ 0 then .error (.write .deviceFull) else .ok ()

/-- The end of a run. The listing, where there is one, follows the messages. -/
structure Report where
  code : UInt32
  output : ByteArray := .empty
  messages : String := ""
  listing : Option String := none

def Outcome.text : Outcome → String
  | .generated emitted => "Generated \x7b emitted: " ++ emitted.repr ++ " \x7d"
  | .unimplemented => "Unimplemented"

/-- The record of a run that came to its end. -/
def doneEvent (suite : Suite) (outcome : Outcome) : Event where
  level := .debug
  target := "sbl_brgen"
  message := "done"
  fields := [⟨"outcome", Outcome.text outcome, false⟩, ⟨"suite", suite.name, true⟩]

/-- The log as it is written at a threshold; without a threshold nothing is. -/
def logText (threshold : Option Level) (records : List Record) : String :=
  match threshold with
  | none => ""
  | some threshold => unlines (logLines threshold records)

/-- Generate a suite to the device. -/
def report (device : Device) (threshold : Option Level) (suite : Suite)
    (options : GenerateOptions) : Report :=
  let g := generate suite options device.sink
  let result := do
    let outcome ← g.outcome
    device.flush g.sink
    pure outcome
  let output := device.deliver g.sink.written
  match result with
  | .ok outcome =>
    { code := 0
      output
      messages := logText threshold (g.log ++ [.event none (doneEvent suite outcome)]) }
  | .error error =>
    { code := 1
      output
      messages := logText threshold g.log ++ "error: " ++ error.message ++ "\n" }

/-- Run the program with these arguments and this reader of search patterns. -/
def runWith (readSearch : SearchReader) (device : Device) (threshold : Option Level)
    (arguments : List String) : Report :=
  match Command.ofArguments readSearch arguments with
  | .error error =>
    { code := 1, messages := "error: " ++ error.message ++ "\n\n", listing := some suiteListing }
  | .ok (.help length) => { code := 0, output := device.deliver length.text.toUTF8 }
  | .ok (.generate suite format grep) =>
    report device threshold suite { format, grep }

/-- Run the program with these arguments. -/
def run : Device → Option Level → List String → Report :=
  runWith Pattern.search

end BranchCases.CommandLine
