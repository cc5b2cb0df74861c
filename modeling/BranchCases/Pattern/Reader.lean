import BranchCases.Pattern.Class

/-
Reading a search pattern from its text: alternatives, sequences, repetitions and groups.
-/
namespace BranchCases

open Read

/-- Characters that a count may be surrounded with. -/
def isBlank (c : Char) : Bool :=
  let n := c.toNat
  (9 ≤ n && n ≤ 13) || n == 32 || n == 0x85 || n == 0xa0 || n == 0x1680 ||
    (0x2000 ≤ n && n ≤ 0x200a) || n == 0x2028 || n == 0x2029 || n == 0x202f || n == 0x205f ||
    n == 0x3000

/-- A number of a count with the blanks around it, if there is one; it has to fit in 32 bits. -/
def readCount : Read (Option Nat) := do
  let _ ← takeRun isBlank
  let digits ← takeRun Char.isDigit
  let _ ← takeRun isBlank
  if digits.isEmpty then
    return none
  else
    let count := digits.foldl (fun n c => 10 * n + (c.toNat - '0'.toNat)) 0
    if count < Nat.pow 2 32 then return some count else throw .badCount

/-- The bounds of a counted repetition, its opening brace being consumed. -/
def readBounds : Read (Nat × Option Nat) := do
  let some low ← readCount | throw .badCount
  let high ← if ← skip "," then
      if ← looksAt "\x7d" then
        pure none
      else
        let some high ← readCount | throw .badCount
        pure (some high)
    else
      pure (some low)
  if !(← skip "\x7d") then throw .badCount
  if high.any (· < low) then throw .badCount
  return (low, high)

/-- The bounds of a repetition, if an operator stands ahead. -/
def readRepetition : Read (Option (Nat × Option Nat)) := do
  if ← skip "?" then return some (0, some 1)
  else if ← skip "*" then return some (0, none)
  else if ← skip "+" then return some (1, none)
  else if ← skip "\x7b" then return some (← readBounds)
  else return none

/-- The flags between a question mark and the colon or parenthesis that ends them.
`U` and `u` have no bearing on whether a pattern occurs. -/
def setFlags : List Char → Bool → List Char → Flags → Except PatternError Flags
  | [], _, _, flags => .ok flags
  | '-' :: rest, true, seen, flags =>
    if rest.isEmpty || seen.contains '-' then .error .badFlags
    else setFlags rest false ('-' :: seen) flags
  | '-' :: _, false, _, _ => .error .badFlags
  | c :: rest, value, seen, flags =>
    if seen.contains c then .error .badFlags
    else match c with
      | 'i' => setFlags rest value (c :: seen) { flags with ignoreCase := value }
      | 'm' => setFlags rest value (c :: seen) { flags with multiLine := value }
      | 's' => setFlags rest value (c :: seen) { flags with dotAll := value }
      | 'U' => setFlags rest value (c :: seen) flags
      | 'u' => if value then setFlags rest value (c :: seen) flags else .error .badFlags
      | _ => .error .badFlags

/-- A group name up to its closing angle bracket. -/
def readGroupName : Read Unit := do
  let name ← takeRun (· != '>')
  let _ ← next .badGroupName
  let isLetter (c : Char) : Bool := c == '_' || c.isAlpha || c.toNat ≥ 128
  let isInner (c : Char) : Bool := isLetter c || c.isDigit || c == '.' || c == '[' || c == ']'
  let used := (← get).names
  match name with
  | first :: rest =>
    if !isLetter first || !rest.all isInner || used.contains (String.ofList name) then
      throw .badGroupName
    modify fun r => { r with names := String.ofList name :: used }
  | [] => throw .badGroupName

/-- What stands after the parenthesis of a group: the flags for its content. A parenthesis
that only sets flags for what follows it has no content. -/
inductive GroupOpening where
  | content (flags : Flags)
  | directive (flags : Flags)

/-- The opening of a group, its parenthesis being consumed. -/
def readGroupOpening : Read GroupOpening := do
  let flags := (← get).flags
  if (← looksAt "?=") || (← looksAt "?!") || (← looksAt "?<=") || (← looksAt "?<!") then
    throw .lookAround
  else if ← skip "?P<" then
    readGroupName
    return .content flags
  else if ← skip "?<" then
    readGroupName
    return .content flags
  else if ← skip "?" then
    let letters ← takeRun fun c => c != ':' && c != ')'
    let flags ← setFlags letters true [] flags
    if (← next .groupUnclosed) == ':' then return .content flags
    else if letters.isEmpty then throw .nothingToRepeat
    else return .directive flags
  else
    return .content flags

/-- One pattern that is neither a group nor a class; a character stands ahead. -/
def readSingle : Read Pattern := do
  let flags := (← get).flags
  match ← next .badEscape with
  | '.' => return .one (if flags.dotAll then .all else .inLine)
  | '^' => return .anchor (if flags.multiLine then .lineStart else .textStart)
  | '$' => return .anchor (if flags.multiLine then .lineEnd else .textEnd)
  | '\\' =>
    match ← readEscape with
    | .char c => return .one (← underFlags (.single c))
    | .set s => return .one (← underFlags s)
    | .place a => return .anchor a
  | c => return .one (← underFlags (.single c))

mutual

/-- Alternatives up to the end of their group. -/
def readAlternatives : Nat → Read Pattern
  | 0 => throw .tooLong
  | fuel + 1 => do
    let first ← readSequence fuel []
    if ← skip "|" then
      return .either first (← readAlternatives fuel)
    else
      return first

/-- A sequence up to the end of its alternative. The items read so far stand last first;
one that cannot be repeated is missing. -/
def readSequence : Nat → List (Option Pattern) → Read Pattern
  | 0, _ => throw .tooLong
  | fuel + 1, items => do
    let ahead ← peek
    if ahead.isNone || ahead == some '|' || ahead == some ')' then
      return items.foldl (fun after item => .sequence (item.getD .empty) after) .empty
    else if let some (low, high) ← readRepetition then
      match items with
      | some p :: before =>
        let _ ← skip "?"
        readSequence fuel (some (.repeated p low high) :: before)
      | _ => throw .nothingToRepeat
    else if ← skip "(" then
      readSequence fuel ((← readGroup fuel) :: items)
    else if ← skip "[" then
      readSequence fuel (some (.one (← readClass fuel)) :: items)
    else
      readSequence fuel (some (← readSingle) :: items)

/-- A group, its parenthesis being consumed. -/
def readGroup : Nat → Read (Option Pattern)
  | 0 => throw .tooLong
  | fuel + 1 => do
    let outer := (← get).flags
    match ← readGroupOpening with
    | .directive flags =>
      modify fun r => { r with flags }
      return none
    | .content flags =>
      modify fun r => { r with flags }
      let p ← readAlternatives fuel
      if !(← skip ")") then throw .groupUnclosed
      modify fun r => { r with flags := outer }
      return some p

end

/-- A whole text as a pattern. No character asks for more than three nested steps, so the fuel does
not run out (`Pattern.read_ne_tooLong`). -/
def Pattern.read (text : String) : Except PatternError Pattern := do
  let (p, rest) ← StateT.run (readAlternatives (3 * text.length + 3)) { ahead := text.toList }
  if rest.ahead.isEmpty then return p else throw .groupUnopened

/-- What a pattern asks of a text, read from the pattern's own text. -/
abbrev SearchReader := String → Except PatternError (String → Bool)

/-- A pattern asks that it occurs. -/
def Pattern.search : SearchReader := fun text =>
  (Pattern.read text).map Pattern.occursIn

end BranchCases
