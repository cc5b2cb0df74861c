import BranchCases.Pattern.Basic
import BranchCases.Pattern.Reading

/-
Escapes in a search pattern: characters, sets and anchors that follow a backslash.
-/
namespace BranchCases

open Read

/-- The value of a digit of base sixteen. -/
def hexDigit? (c : Char) : Option Nat :=
  if '0' ≤ c && c ≤ '9' then some (c.toNat - '0'.toNat)
  else if 'a' ≤ c && c ≤ 'f' then some (c.toNat - 'a'.toNat + 10)
  else if 'A' ≤ c && c ≤ 'F' then some (c.toNat - 'A'.toNat + 10)
  else none

/-- The character with the code that the digits spell. -/
def charOfHex? (digits : List Char) : Option Char := do
  let code ← digits.foldlM (fun n c => (hexDigit? c).map (16 * n + ·)) 0
  if h : code.isValidChar then some (Char.ofNatAux code h) else none

/-- What an escape stands for. -/
inductive Escaped where
  | char (c : Char)
  | set (s : CharSet)
  | place (a : Anchor)

/-- The characters that an escape takes literally: all of ASCII but letters, digits, `<`, `>`. -/
def isEscapable (c : Char) : Bool :=
  c.toNat < 128 && !c.isAlphanum && c != '<' && c != '>'

/-- The code of a character in digits of base sixteen, `count` of them or any number in braces. -/
def readHex (count : Nat) : Read Char := do
  let digits ←
    if ← skip "\x7b" then
      let digits ← takeRun (· != '\x7d')
      if digits.isEmpty then throw .badEscape
      let _ ← next .badEscape
      pure digits
    else
      let digits := (← get).ahead.take count
      if digits.length < count then throw .badEscape
      advance count
      pure digits
  match charOfHex? digits with
  | some c => return c
  | none => throw .badEscape

/-- The rest of a word boundary: it may name one side of a word in braces. Braces that hold
no name are left to be read as a count. -/
def readBoundary : Read Anchor := do
  let isNameChar (c : Char) : Bool := c.isAlpha || c == '-'
  match (← get).ahead with
  | '\x7b' :: c :: _ =>
    if isNameChar c then
      advance 1
      let name ← takeRun isNameChar
      if !(← skip "\x7d") then throw .badEscape
      match String.ofList name with
      | "start" => return .wordStart
      | "end" => return .wordEnd
      | "start-half" => return .wordStartHalf
      | "end-half" => return .wordEndHalf
      | _ => throw .badEscape
    else
      return .wordBoundary
  | ['\x7b'] => throw .badEscape
  | _ => return .wordBoundary

/-- An escape, the backslash being consumed. -/
def readEscape : Read Escaped := do
  let c ← next .badEscape
  if isEscapable c then
    return .char c
  else if c.isDigit then
    throw .backReference
  else
    match c with
    | 'd' => return .set .digit
    | 'D' => return .set (.compl .digit)
    | 's' => return .set .space
    | 'S' => return .set (.compl .space)
    | 'w' => return .set .word
    | 'W' => return .set (.compl .word)
    | 'a' => return .char '\x07'
    | 'f' => return .char '\x0c'
    | 't' => return .char '\t'
    | 'n' => return .char '\n'
    | 'r' => return .char '\r'
    | 'v' => return .char '\x0b'
    | 'x' => return .char (← readHex 2)
    | 'u' => return .char (← readHex 4)
    | 'U' => return .char (← readHex 8)
    | 'A' => return .place .textStart
    | 'z' => return .place .textEnd
    | 'b' => return .place (← readBoundary)
    | 'B' => return .place .noWordBoundary
    | '<' => return .place .wordStart
    | '>' => return .place .wordEnd
    | _ => throw .badEscape

end BranchCases
