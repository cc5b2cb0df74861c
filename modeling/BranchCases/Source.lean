import BranchCases.Statement

/-
Source text. A construct is written word by word onto a text, one space between
words; text is copied as it is, so a string literal is the literal between two quotes.
-/
namespace BranchCases

/-- The `text` with one more word; the first word of a text has no space before it. -/
def addWord (word text : String) : String :=
  if text.isEmpty then word else text ++ " " ++ word

/-- The one word of a literal. -/
def Value.source : Value → String
  | .int n => n.toInt.repr
  | .string s => "\"" ++ s ++ "\""
  | .bool true => "T"
  | .bool false => "F"
  | .nil => "@"

mutual

def Statement.write : Statement → String → String
  | .push v, text => addWord v.source text
  | .branch b, text => b.write text

/-- Write a branch: nothing closes it after its last clause, so `post` simply follows. -/
def Branch.write : Branch → String → String
  | ⟨pre, cond, body, elbr, el, post⟩, text =>
    text |> writeAll pre
      |> addWord "br" |> writeAll cond |> addWord "\x7b" |> writeAll body |> addWord "\x7d"
      |> writeClauses elbr |> writeAlternative el |> writeAll post

def Elbr.write : Elbr → String → String
  | ⟨cond, body⟩, text =>
    text |> addWord "elbr" |> writeAll cond |> addWord "\x7b" |> writeAll body |> addWord "\x7d"

def writeAll : List Statement → String → String
  | [], text => text
  | s :: rest, text => text |> s.write |> writeAll rest

def writeClauses : List Elbr → String → String
  | [], text => text
  | c :: rest, text => text |> c.write |> writeClauses rest

def writeAlternative : Option (List Statement) → String → String
  | none, text => text
  | some body, text => text |> addWord "el" |> addWord "\x7b" |> writeAll body |> addWord "\x7d"

end

/-- Anything that has a source text of its own. -/
inductive Fragment where
  | value (v : Value)
  | statement (s : Statement)
  | branch (b : Branch)
  | elbr (clause : Elbr)
  | el (body : List Statement)

instance : Coe Branch Fragment := ⟨.branch⟩

/-- Write a fragment at the end of a text. -/
def Fragment.write : Fragment → String → String
  | .value v, text => addWord v.source text
  | .statement s, text => s.write text
  | .branch b, text => b.write text
  | .elbr clause, text => clause.write text
  | .el body, text => writeAlternative (some body) text

/-- The text of a fragment on its own. -/
def Fragment.source (f : Fragment) : String :=
  f.write ""

def Branch.source (b : Branch) : String :=
  b.write ""

def Elbr.source (clause : Elbr) : String :=
  clause.write ""

/-- A whole program whose main block holds the fragment. -/
def Fragment.program (f : Fragment) : String :=
  "main \x7b " ++ f.source ++ " \x7d"

end BranchCases
