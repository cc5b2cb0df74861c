import BranchCases.CommandLine.Run

/-
The program. The severity named by `BRGEN_LOG`, if any, is the threshold of the log.
-/
namespace BranchCases.CommandLine

/-- Whether standard output took all the bytes. -/
def putOutput (bytes : ByteArray) : IO Bool := do
  try
    let out ← IO.getStdout
    if bytes.size ≠ 0 then
      out.write bytes
    out.flush
    return true
  catch _ =>
    return false

/-- Run the program in its surroundings and answer its exit code. -/
def perform (arguments : List String) : IO UInt32 := do
  let word ← IO.getEnv "BRGEN_LOG"
  let threshold := word.bind fun word => (Named.pick .exactly word).toOption
  let planned := run .working threshold arguments
  let final := if ← putOutput planned.output then planned else run .full threshold arguments
  IO.eprint (final.messages ++ final.listing.getD "")
  return final.code

end BranchCases.CommandLine

def main (arguments : List String) : IO UInt32 :=
  BranchCases.CommandLine.perform arguments
