import BranchCases.Pattern.Escape

/-
Character classes in brackets. Items that stand side by side are united first; the operators
between them bind equally and to the left.
-/
namespace BranchCases

open Read

/-- The set under the flags in force. -/
def underFlags (set : CharSet) : Read CharSet := do
  return if (← get).flags.ignoreCase then .caseless set else set

/-- One character of a class, or the set that an escape stands for. -/
def readClassItem : Read Escaped := do
  match ← next .classUnclosed with
  | '\\' =>
    match ← readEscape with
    | .place _ => throw .badEscape
    | item => return item
  | c => return .char c

/-- One item of a class: a range, a character, or the set that an escape stands for. A hyphen
before the closing bracket or before another hyphen makes no range. -/
def readClassRange : Read CharSet := do
  let first ← readClassItem
  match (← get).ahead with
  | [] => throw .classUnclosed
  | '-' :: c :: _ =>
    if c == ']' || c == '-' then
      return single first
    else
      advance 1
      match first, ← readClassItem with
      | .char low, .char high =>
        if low ≤ high then return .range low high else throw .badClassRange
      | _, _ => throw .badClassRange
  | ['-'] => throw .classUnclosed
  | _ => return single first
where
  single : Escaped → CharSet
    | .char c => .single c
    | .set s => s
    | .place _ => .none

/-- A set by name, such as `[:digit:]`, its opening bracket being consumed; anything else is left
to be read as a class. -/
def readNamedSet : Read (Option CharSet) := do
  match (← get).ahead with
  | ':' :: rest =>
    let negated := rest.head? == some '^'
    let rest := if negated then rest.drop 1 else rest
    let name := rest.takeWhile (· != ':')
    match rest.dropWhile (· != ':'), CharSet.named? (String.ofList name) with
    | ':' :: ']' :: rest, some set =>
      modify fun r => { r with ahead := rest }
      return some (if negated then .compl set else set)
    | _, _ => return none
  | _ => return none

/-- The operators between the parts of a class. -/
inductive ClassOp where
  | inter | diff | symmDiff

/-- The part of a class before its last operator, joined with the part after it. -/
def joinClass (before : Option (ClassOp × CharSet)) (after : CharSet) : Read CharSet := do
  match before with
  | none => return after
  | some (op, left) =>
    let left ← underFlags left
    let right ← underFlags after
    match op with
    | .inter => return .inter left right
    | .diff => return .diff left right
    | .symmDiff => return .symmDiff left right

/-- The opening of a class after its bracket: negation, and hyphens or a closing bracket
that stand for themselves because they come first. -/
def readClassOpening : Read (Bool × CharSet) := do
  let negated ← skip "^"
  let hyphens ← takeRun (· == '-')
  if hyphens.isEmpty then
    if ← skip "]" then return (negated, .single ']') else return (negated, .none)
  else
    return (negated, .single '-')

mutual

/-- A class, its opening bracket being consumed. -/
def readClass : Nat → Read CharSet
  | 0 => throw .tooLong
  | fuel + 1 => do
    let (negated, items) ← readClassOpening
    let set ← underFlags (← readClassItems fuel none items)
    return if negated then .compl set else set

/-- The items of a class up to its closing bracket. -/
def readClassItems : Nat → Option (ClassOp × CharSet) → CharSet → Read CharSet
  | 0, _, _ => throw .tooLong
  | fuel + 1, before, items => do
    if ← skip "]" then
      joinClass before items
    else if ← skip "&&" then
      readClassItems fuel (some (.inter, ← joinClass before items)) .none
    else if ← skip "--" then
      readClassItems fuel (some (.diff, ← joinClass before items)) .none
    else if ← skip "~~" then
      readClassItems fuel (some (.symmDiff, ← joinClass before items)) .none
    else if ← skip "[" then
      match ← readNamedSet with
      | some set => readClassItems fuel before (.union items set)
      | none => readClassItems fuel before (.union items (← readClass fuel))
    else
      readClassItems fuel before (.union items (← readClassRange))

end

end BranchCases
