/-
Sets of characters as they are put together in a search pattern.
-/
namespace BranchCases

inductive CharSet where
  | none
  | range (low high : Char)
  | union (a b : CharSet)
  | inter (a b : CharSet)
  | diff (a b : CharSet)
  | symmDiff (a b : CharSet)
  | compl (a : CharSet)
  /-- The set together with the other case of each ASCII letter in it. -/
  | caseless (a : CharSet)

namespace CharSet

def contains : CharSet → Char → Bool
  | none, _ => false
  | range low high, c => low ≤ c && c ≤ high
  | union a b, c => a.contains c || b.contains c
  | inter a b, c => a.contains c && b.contains c
  | diff a b, c => a.contains c && !b.contains c
  | symmDiff a b, c => a.contains c != b.contains c
  | compl a, c => !a.contains c
  | caseless a, c => a.contains c.toLower || a.contains c.toUpper

def single (c : Char) : CharSet :=
  range c c

def unions : List CharSet → CharSet :=
  List.foldr union none

def lower : CharSet := range 'a' 'z'

def upper : CharSet := range 'A' 'Z'

def digit : CharSet := range '0' '9'

def alpha : CharSet := union lower upper

def alnum : CharSet := union alpha digit

/-- The characters of a word. -/
def word : CharSet := union alnum (single '_')

/-- Blanks and line breaks: the controls from tab to carriage return, and the space. -/
def space : CharSet := union (range '\t' '\r') (single ' ')

def graph : CharSet := range '!' '~'

/-- Everything but a line break. -/
def inLine : CharSet := compl (single '\n')

def all : CharSet := compl none

/-- The sets that have a name inside brackets. -/
def named? : String → Option CharSet
  | "alnum" => some alnum
  | "alpha" => some alpha
  | "ascii" => some (range '\x00' '\x7f')
  | "blank" => some (union (single '\t') (single ' '))
  | "cntrl" => some (union (range '\x00' '\x1f') (single '\x7f'))
  | "digit" => some digit
  | "graph" => some graph
  | "lower" => some lower
  | "print" => some (range ' ' '~')
  | "punct" => some (diff graph alnum)
  | "space" => some space
  | "upper" => some upper
  | "word" => some word
  | "xdigit" => some (unions [digit, range 'a' 'f', range 'A' 'F'])
  | _ => Option.none

end CharSet

end BranchCases
