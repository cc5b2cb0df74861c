/-
Closed sets of options that a user picks by name.
-/
namespace BranchCases

/-- The options of a type in their listing order, each with its name. -/
class Named (α : Type) where
  all : List α
  name : α → String

/-- A text that names none of the options. -/
structure UnknownName where
  text : String
  deriving DecidableEq

def UnknownName.message (unknown : UnknownName) : String :=
  "invalid variant: " ++ unknown.text

/-- How a text is compared with a name: as it is, or with the case of ASCII letters set aside. -/
inductive NameMatch where
  | exactly
  | ignoringCase

def NameMatch.agrees : NameMatch → String → String → Bool
  | .exactly, name, text => name == text
  | .ignoringCase, name, text => name.map Char.toLower == text.map Char.toLower

/-- The first option whose name agrees with the text. -/
def Named.pick {α : Type} [Named α] (how : NameMatch) (text : String) : Except UnknownName α :=
  match (Named.all (α := α)).find? fun option => how.agrees (Named.name option) text with
  | some option => .ok option
  | none => .error ⟨text⟩

end BranchCases
