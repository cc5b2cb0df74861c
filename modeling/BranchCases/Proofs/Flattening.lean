import BranchCases.Statement

/-
The flat form of a construct: the items that a reader of its source meets. A branch has no
mark for where its `pre` begins or its `post` ends, so both dissolve into the sequence around
it, and only its core stays together.
-/
namespace BranchCases

mutual

/-- A literal, or a core: condition, body, clauses and alternative of a branch. -/
inductive Item where
  | push (value : Value)
  | core (cond body : List Item) (arms : List Arm) (el : Option (List Item))

structure Arm where
  cond : List Item
  body : List Item

end

mutual

def Statement.items : Statement → List Item
  | .push v => [.push v]
  | .branch b => b.items

/-- The items of a branch: those of `pre`, the core, those of `post`. -/
def Branch.items : Branch → List Item
  | ⟨pre, cond, body, elbr, el, post⟩ =>
    itemsAll pre ++
      .core (itemsAll cond) (itemsAll body) (itemsClauses elbr) (itemsAlternative el) ::
        itemsAll post

def itemsAll : List Statement → List Item
  | [] => []
  | s :: rest => s.items ++ itemsAll rest

def itemsClauses : List Elbr → List Arm
  | [] => []
  | ⟨cond, body⟩ :: rest => ⟨itemsAll cond, itemsAll body⟩ :: itemsClauses rest

def itemsAlternative : Option (List Statement) → Option (List Item)
  | none => none
  | some body => some (itemsAll body)

end

mutual

def Statement.literals : Statement → List Value
  | .push v => [v]
  | .branch b => b.literals

/-- The literals of a branch in the order of its source. -/
def Branch.literals : Branch → List Value
  | ⟨pre, cond, body, elbr, el, post⟩ =>
    literalsAll pre ++ literalsAll cond ++ literalsAll body ++ literalsClauses elbr ++
      literalsAlternative el ++ literalsAll post

def literalsAll : List Statement → List Value
  | [] => []
  | s :: rest => s.literals ++ literalsAll rest

def literalsClauses : List Elbr → List Value
  | [] => []
  | ⟨cond, body⟩ :: rest => literalsAll cond ++ literalsAll body ++ literalsClauses rest

def literalsAlternative : Option (List Statement) → List Value
  | none => []
  | some body => literalsAll body

end

/-- A literal whose text, if it is a string, has no quote in it. -/
def Value.QuoteFree : Value → Prop
  | .string s => '"' ∉ s.toList
  | .int _ | .bool _ | .nil => True

instance : DecidablePred Value.QuoteFree
  | .string s => inferInstanceAs (Decidable ('"' ∉ s.toList))
  | .int _ | .bool _ | .nil => isTrue trivial

/-- No string literal of the branch, at any depth, has a quote in it. -/
def Branch.QuoteFree (b : Branch) : Prop :=
  ∀ v ∈ b.literals, v.QuoteFree

instance : DecidablePred Branch.QuoteFree :=
  fun b => inferInstanceAs (Decidable (∀ v ∈ b.literals, v.QuoteFree))

end BranchCases
