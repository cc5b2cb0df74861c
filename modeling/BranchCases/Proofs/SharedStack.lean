import BranchCases.Proofs.Flattening
import BranchCases.Proofs.Runs

/-
A machine that runs items on one operand stack. Main result: it leaves what a branch leaves
that runs on a stack of its own, on top of the operands that were there.
-/
namespace BranchCases

/-- Take the top operand and go on with the rest of the stack by its truth; no way on from
an empty stack. -/
def popTop (stack : Stack) (passed failed : Stack → Option Stack) : Option Stack :=
  match stack.getLast? with
  | none => none
  | some v => if v.isTruthy then passed stack.dropLast else failed stack.dropLast

mutual

def Item.exec : Item → Stack → Option Stack
  | .push v, stack => some (stack ++ [v])
  | .core cond body arms el, stack =>
    (execAll cond stack).bind fun tested =>
      popTop tested (execAll body) fun rest => execArms arms rest (execAlternative el)

def execAll : List Item → Stack → Option Stack
  | [], stack => some stack
  | item :: rest, stack => (item.exec stack).bind (execAll rest)

/-- Try the arms in order and execute the body of the first that passes; `otherwise` when
none does. -/
def execArms : List Arm → Stack → (Stack → Option Stack) → Option Stack
  | [], stack, otherwise => otherwise stack
  | ⟨cond, body⟩ :: rest, stack, otherwise =>
    (execAll cond stack).bind fun tested =>
      popTop tested (execAll body) fun below => execArms rest below otherwise

def execAlternative : Option (List Item) → Stack → Option Stack
  | none, stack => some stack
  | some body, stack => execAll body stack

end

theorem popTop_append (below : Stack) (v : Value) (passed failed : Stack → Option Stack) :
    popTop (below ++ [v]) passed failed = if v.isTruthy then passed below else failed below := by
  simp [popTop]

theorem execAll_append (first rest : List Item) (stack : Stack) :
    execAll (first ++ rest) stack = (execAll first stack).bind (execAll rest) := by
  induction first generalizing stack with
  | nil => rfl
  | cons item first ih =>
      rw [List.cons_append, execAll, execAll, Option.bind_assoc]
      exact congrArg _ (funext fun _ => ih _)

/-- A test that goes on, on a stack of its own, goes on in the same way on top of `base`. -/
theorem popTop_of_testTop {sender : Sender} {base stack out : Stack} {passed failed : Stack → Run}
    {passed' failed' : Stack → Option Stack}
    (h : testTop sender stack passed failed = .done out)
    (hpassed : ∀ own, passed own = .done out → passed' (base ++ own) = some (base ++ out))
    (hfailed : ∀ own, failed own = .done out → failed' (base ++ own) = some (base ++ out)) :
    popTop (base ++ stack) passed' failed' = some (base ++ out) := by
  obtain ⟨below, v, rfl, went⟩ := testTop_eq_done h
  rw [← List.append_assoc, popTop_append]
  by_cases truth : v.isTruthy
  · rw [if_pos truth] at went ⊢
    exact hpassed below went
  · rw [if_neg truth] at went ⊢
    exact hfailed below went

-- The invariant of the four recursions: the shared stack is `base` with the stack of its own
-- on top, before and after.
mutual

theorem Statement.exec_items : (s : Statement) → {own out : Stack} → (base : Stack) →
    s.runOn own = .done out → execAll s.items (base ++ own) = some (base ++ out)
  | .push v, own, out, base, h => by
      cases h
      simp [Statement.items, execAll, Item.exec]
  | .branch b, own, out, base, h => b.exec_items base h

theorem Branch.exec_items : (b : Branch) → {own out : Stack} → (base : Stack) →
    b.runOn own = .done out → execAll b.items (base ++ own) = some (base ++ out)
  | ⟨pre, cond, body, elbr, el, post⟩, own, out, base, h => by
      obtain ⟨left, hbranch, rfl⟩ := Run.appendTo_eq_done.mp h
      obtain ⟨mid, htested, hpost⟩ := Run.andThen_eq_done.mp hbranch
      obtain ⟨tested, hhead, htest⟩ := Run.andThen_eq_done.mp htested
      obtain ⟨before, hpre, hcond⟩ := Run.andThen_eq_done.mp hhead
      -- The branch begins on an empty stack, so all that is shared lies beneath it.
      have hpre' := execAll_itemsAll pre (base ++ own) hpre
      have hcond' := execAll_itemsAll cond (base ++ own) hcond
      have hpost' := execAll_itemsAll post (base ++ own) hpost
      have hcore : (Item.core (itemsAll cond) (itemsAll body) (itemsClauses elbr)
          (itemsAlternative el)).exec (base ++ own ++ before) = some (base ++ own ++ mid) := by
        rw [Item.exec, hcond', Option.bind_some]
        refine popTop_of_testTop htest ?_ ?_
        · exact fun below hbody => execAll_itemsAll body (base ++ own) hbody
        · intro below hclauses
          exact execArms_itemsClauses elbr (base ++ own)
            (fun rest hel => execAlternative_itemsAlternative el (base ++ own) hel) hclauses
      rw [List.append_nil] at hpre'
      rw [Branch.items, execAll_append, hpre', Option.bind_some, execAll, hcore, Option.bind_some,
        hpost', List.append_assoc]

theorem execAll_itemsAll : (stmts : List Statement) → {own out : Stack} → (base : Stack) →
    runAll stmts own = .done out → execAll (itemsAll stmts) (base ++ own) = some (base ++ out)
  | [], own, out, base, h => by
      cases h
      rfl
  | s :: rest, own, out, base, h => by
      obtain ⟨mid, hs, hrest⟩ := Run.andThen_eq_done.mp h
      rw [itemsAll, execAll_append, s.exec_items base hs]
      exact execAll_itemsAll rest base hrest

theorem execArms_itemsClauses : (elbr : List Elbr) → {own out : Stack} → (base : Stack) →
    {otherwise : Stack → Run} → {otherwise' : Stack → Option Stack} →
    (∀ own, otherwise own = .done out → otherwise' (base ++ own) = some (base ++ out)) →
    runClauses elbr own otherwise = .done out →
    execArms (itemsClauses elbr) (base ++ own) otherwise' = some (base ++ out)
  | [], own, out, base, otherwise, otherwise', hlast, h => hlast own h
  | ⟨cond, body⟩ :: rest, own, out, base, otherwise, otherwise', hlast, h => by
      obtain ⟨tested, hcond, htest⟩ := Run.andThen_eq_done.mp h
      rw [itemsClauses, execArms, execAll_itemsAll cond base hcond, Option.bind_some]
      refine popTop_of_testTop htest ?_ ?_
      · exact fun below hbody => execAll_itemsAll body base hbody
      · exact fun below hrest => execArms_itemsClauses rest base hlast hrest

theorem execAlternative_itemsAlternative : (el : Option (List Statement)) → {own out : Stack} →
    (base : Stack) → runAlternative el own = .done out →
    execAlternative (itemsAlternative el) (base ++ own) = some (base ++ out)
  | none, own, out, base, h => by
      cases h
      rfl
  | some body, own, out, base, h => execAll_itemsAll body base h

end

/-- What the items of a branch leave on a shared stack is what the branch leaves that is run
on a stack of its own. -/
theorem Branch.exec_items_of_flow (b : Branch) (left shared : Stack) (h : b.flow = .ok left) :
    execAll b.items shared = some (shared ++ left) := by
  have hrun : b.runOn [] = .done left := Run.result_eq_ok.mp h
  have hexec := b.exec_items shared hrun
  rwa [List.append_nil] at hexec

/-- A branch whose clause tests an operand from in front of it, below a nested branch. -/
def residueBranch : Branch where
  pre := pushes [.int 1]
  cond := [.branch { cond := pushes [.bool true], body := pushes [.bool false] }]
  elbr := [{ cond := [], body := pushes [.int 2, .nil] }]

theorem residueBranch_exec_items :
    residueBranch.flow = .ok [.int 2, .nil] ∧
      execAll residueBranch.items [.string "s"] = some [.string "s", .int 2, .nil] :=
  ⟨rfl, residueBranch.exec_items_of_flow [.int 2, .nil] [.string "s"] rfl⟩

end BranchCases
