/-
Where generated text goes: a sink of bytes that may run out of room.
-/
namespace BranchCases

/-- Why a sink takes no more bytes. -/
inductive WriteError where
  /-- The limit that was set for the sink is reached. -/
  | sinkFull
  /-- The device behind the sink has no room. -/
  | deviceFull
  deriving DecidableEq

def WriteError.message : WriteError → String
  | .sinkFull => "sink is full"
  | .deviceFull => "No space left on device (os error 28)"

/-- What a sink has taken, how much it takes in all, and how it refuses more. -/
structure Sink where
  limit : Option Nat := none
  refusal : WriteError := .sinkFull
  written : ByteArray := .empty

/-- The number of bytes a sink still takes of a piece of that size. -/
def Sink.room (sink : Sink) (size : Nat) : Nat :=
  match sink.limit with
  | none => size
  | some limit => min size (limit - sink.written.size)

/-- Write a piece. Of a piece that does not fit the sink takes the part that does. -/
def Sink.write (piece : ByteArray) : EStateM WriteError Sink Unit := fun sink =>
  let taken := sink.room piece.size
  let sink := { sink with written := sink.written ++ piece.extract 0 taken }
  if taken < piece.size then .error sink.refusal sink else .ok () sink

end BranchCases
