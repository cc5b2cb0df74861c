import BranchCases.Pattern.CharSet

/-
Search patterns and the test whether one occurs in a text. A pattern moves a set of
positions in the text to the set of positions that it can reach from there, so only the
existence of an occurrence is decided, and greed plays no part.
-/
namespace BranchCases

/-- A place in a text that takes up no character. -/
inductive Anchor where
  | textStart | textEnd
  | lineStart | lineEnd
  | wordBoundary | noWordBoundary
  | wordStart | wordEnd
  | wordStartHalf | wordEndHalf

inductive Pattern where
  | empty
  | one (set : CharSet)
  | anchor (place : Anchor)
  | sequence (first second : Pattern)
  | either (first second : Pattern)
  /-- At least `low` times in a row and, if a bound is given, at most `high` times. -/
  | repeated (p : Pattern) (low : Nat) (high : Option Nat)

/-- The character before a position and the one after it decide whether an anchor holds. -/
def Anchor.holds (place : Anchor) (before after : Option Char) : Bool :=
  let wordBefore := before.any CharSet.word.contains
  let wordAfter := after.any CharSet.word.contains
  match place with
  | .textStart => before.isNone
  | .textEnd => after.isNone
  | .lineStart => before.all (· == '\n')
  | .lineEnd => after.all (· == '\n')
  | .wordBoundary => wordBefore != wordAfter
  | .noWordBoundary => wordBefore == wordAfter
  | .wordStart => !wordBefore && wordAfter
  | .wordEnd => wordBefore && !wordAfter
  | .wordStartHalf => !wordBefore
  | .wordEndHalf => !wordAfter

/-- A set of positions, position `i` being bit `i`. -/
abbrev Positions := Nat

/-- The positions below `count` where a test holds. -/
def positionsWhere (count : Nat) (test : Nat → Bool) : Positions :=
  (List.range count).foldl (fun found i => if test i then found ||| 1 <<< i else found) 0

/-- The positions that a pattern can reach in a text from the positions `start`.
A text of `n` characters leaves room for at most `n` repetitions that take up a character, and one
that takes up none can be repeated at will or left out. So `n + 1` are enough of the repetitions
that have to be there, and `n` of those that may follow them (`exists_allowsCount_iff`). -/
def Pattern.reach (text : Array Char) : Pattern → Positions → Positions
  | .empty, start => start
  | .one set, start =>
    (start &&& positionsWhere text.size fun i => text[i]?.any set.contains) <<< 1
  | .anchor place, start =>
    start &&& positionsWhere (text.size + 1) fun i =>
      place.holds (if i = 0 then none else text[i - 1]?) text[i]?
  | .sequence first second, start => second.reach text (first.reach text start)
  | .either first second, start => first.reach text start ||| second.reach text start
  | .repeated p low high, start =>
    let needed := Nat.repeat (p.reach text) (min low (text.size + 1)) start
    let further := (high.map (· - low)).getD text.size
    Nat.repeat (fun found => found ||| p.reach text found) (min further text.size) needed

/-- Whether a pattern occurs somewhere in a text. -/
def Pattern.occursIn (p : Pattern) (text : String) : Bool :=
  let chars := text.toList.toArray
  p.reach chars (1 <<< (chars.size + 1) - 1) != 0

end BranchCases
