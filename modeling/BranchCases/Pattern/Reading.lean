/-
The state of a reader of search patterns. A reader consumes a text from the left and keeps
the flags in force, which end with the group that they were set in.
-/
namespace BranchCases

/-- Why a text is no pattern. -/
inductive PatternError where
  | nothingToRepeat
  | badCount
  | groupUnclosed
  | groupUnopened
  | badGroupName
  | badFlags
  | lookAround
  | backReference
  | badEscape
  | classUnclosed
  | badClassRange
  | tooLong
  deriving DecidableEq

def PatternError.message : PatternError → String
  | .nothingToRepeat => "a repetition has nothing to repeat"
  | .badCount => "a repetition count is malformed"
  | .groupUnclosed => "a group is not closed"
  | .groupUnopened => "a group is closed that was not opened"
  | .badGroupName => "a group name is malformed or used twice"
  | .badFlags => "flags are malformed or not supported"
  | .lookAround => "look-around is not supported"
  | .backReference => "back references are not supported"
  | .badEscape => "an escape is unknown or malformed"
  | .classUnclosed => "a character class is not closed"
  | .badClassRange => "a character range is malformed or reversed"
  | .tooLong => "the pattern is too long"

/-- What stands in force while a pattern is read. -/
structure Flags where
  ignoreCase : Bool := false
  multiLine : Bool := false
  dotAll : Bool := false

/-- The state of a reader: the text ahead, the flags, and the group names used so far. -/
structure Reading where
  ahead : List Char
  flags : Flags := {}
  names : List String := []

abbrev Read := StateT Reading (Except PatternError)

namespace Read

def peek : Read (Option Char) := do
  return (← get).ahead.head?

def advance (count : Nat) : Read Unit :=
  modify fun r => { r with ahead := r.ahead.drop count }

/-- Whether the text ahead begins so. -/
def looksAt (word : String) : Read Bool := do
  return word.toList.isPrefixOf (← get).ahead

/-- Consume the word if the text ahead begins with it. -/
def skip (word : String) : Read Bool := do
  if ← looksAt word then
    advance word.length
    return true
  else
    return false

/-- The next character; where there is none, the error given. -/
def next (atEnd : PatternError) : Read Char := do
  match (← get).ahead with
  | [] => throw atEnd
  | c :: rest =>
    modify fun r => { r with ahead := rest }
    return c

/-- The longest run of characters of one kind. -/
def takeRun (kind : Char → Bool) : Read (List Char) := do
  let ahead := (← get).ahead
  modify fun r => { r with ahead := ahead.dropWhile kind }
  return ahead.takeWhile kind

end Read

end BranchCases
