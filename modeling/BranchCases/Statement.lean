import BranchCases.Value

/-
Statements of the stack language: pushes of literals and the conditional family
`br` / `elbr` / `el`. Main results: the three types have decidable equality.
-/
namespace BranchCases

mutual

/-- One element of a sequence: a push of a literal, or a whole conditional. -/
inductive Statement where
  | push (value : Value)
  | branch (branch : Branch)

/-- Written `pre br cond { body } elbr* el? post`. A missing `el` differs from an empty one. -/
structure Branch where
  pre : List Statement := []
  cond : List Statement := []
  body : List Statement := []
  elbr : List Elbr := []
  el : Option (List Statement) := none
  post : List Statement := []

/-- Written `elbr cond { body }`: a further condition, tried when those before it failed. -/
structure Elbr where
  cond : List Statement := []
  body : List Statement := []

end

instance : Coe Value Statement := ⟨.push⟩
instance : Coe Branch Statement := ⟨.branch⟩

/-- The literals `values`, pushed one after another. -/
def pushes (values : List Value) : List Statement :=
  values.map .push

/-- The branch with its body replaced. -/
def Branch.withBody (b : Branch) (body : List Statement) : Branch :=
  { b with body }

mutual

/-- Equality of statements is decided part by part. -/
def Statement.decEq : (a b : Statement) → Decidable (a = b)
  | .push v, .push w => decidable_of_iff (v = w) (by simp)
  | .push _, .branch _ => isFalse (by simp)
  | .branch _, .push _ => isFalse (by simp)
  | .branch a, .branch b =>
    have := a.decEq b
    decidable_of_iff (a = b) (by simp)

def Branch.decEq : (a b : Branch) → Decidable (a = b)
  | ⟨pre, cond, body, elbr, el, post⟩, ⟨pre', cond', body', elbr', el', post'⟩ =>
    have := statementsDecEq pre pre'
    have := statementsDecEq cond cond'
    have := statementsDecEq body body'
    have := clausesDecEq elbr elbr'
    have := alternativeDecEq el el'
    have := statementsDecEq post post'
    decidable_of_iff (pre = pre' ∧ cond = cond' ∧ body = body' ∧ elbr = elbr' ∧ el = el' ∧
      post = post') (by simp)

def Elbr.decEq : (a b : Elbr) → Decidable (a = b)
  | ⟨cond, body⟩, ⟨cond', body'⟩ =>
    have := statementsDecEq cond cond'
    have := statementsDecEq body body'
    decidable_of_iff (cond = cond' ∧ body = body') (by simp)

def statementsDecEq : (a b : List Statement) → Decidable (a = b)
  | [], [] => isTrue rfl
  | [], _ :: _ => isFalse (by simp)
  | _ :: _, [] => isFalse (by simp)
  | a :: as, b :: bs =>
    have := a.decEq b
    have := statementsDecEq as bs
    decidable_of_iff (a = b ∧ as = bs) (by simp)

def clausesDecEq : (a b : List Elbr) → Decidable (a = b)
  | [], [] => isTrue rfl
  | [], _ :: _ => isFalse (by simp)
  | _ :: _, [] => isFalse (by simp)
  | a :: as, b :: bs =>
    have := a.decEq b
    have := clausesDecEq as bs
    decidable_of_iff (a = b ∧ as = bs) (by simp)

def alternativeDecEq : (a b : Option (List Statement)) → Decidable (a = b)
  | none, none => isTrue rfl
  | none, some _ => isFalse (by simp)
  | some _, none => isFalse (by simp)
  | some a, some b =>
    have := statementsDecEq a b
    decidable_of_iff (a = b) (by simp)

end

instance : DecidableEq Statement := Statement.decEq
instance : DecidableEq Branch := Branch.decEq
instance : DecidableEq Elbr := Elbr.decEq

end BranchCases
