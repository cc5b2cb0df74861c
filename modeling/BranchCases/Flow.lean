import BranchCases.Source

/-
What a construct leaves on the operand stack. A branch runs on a stack of its own
and hands the remainder to its surroundings only when it comes to its end.
-/
namespace BranchCases

/-- Operands, bottom first. -/
abbrev Stack := List Value

/-- The construct whose condition found nothing to test. -/
inductive Sender where
  | branch (b : Branch)
  | elbr (clause : Elbr)
  deriving DecidableEq

def Sender.source : Sender → String
  | .branch b => b.source
  | .elbr clause => clause.source

/-- Why a construct cannot run. -/
inductive FlowError where
  /-- A condition was tested while no operand was left. -/
  | emptyStack (sender : Sender)
  deriving DecidableEq

def FlowError.sender : FlowError → Sender
  | .emptyStack sender => sender

def FlowError.message : FlowError → String
  | .emptyStack sender => "empty stack when testing the condition of `" ++ sender.source ++ "`"

/-- The short name of the error, for records. -/
def FlowError.code : FlowError → String
  | .emptyStack _ => "empty-stack"

/-- How a run ended, with the operands that were there at that moment. -/
inductive Run where
  | done (stack : Stack)
  | stuck (error : FlowError) (stack : Stack)
  deriving DecidableEq

/-- Go on from the operands of a finished run; a stuck run stays stuck. -/
def Run.andThen : Run → (Stack → Run) → Run
  | .done stack, next => next stack
  | .stuck error stack, _ => .stuck error stack

/-- The operands at the end of a run. -/
def Run.stack : Run → Stack
  | .done stack => stack
  | .stuck _ stack => stack

/-- The operands of a finished run, or the reason why it is stuck. -/
def Run.result : Run → Except FlowError Stack
  | .done stack => .ok stack
  | .stuck error _ => .error error

/-- Take the top operand for `sender` and go on with the rest of the stack by its truth. -/
def testTop (sender : Sender) (stack : Stack) (passed failed : Stack → Run) : Run :=
  match stack.getLast? with
  | none => .stuck (.emptyStack sender) stack
  | some v => if v.isTruthy then passed stack.dropLast else failed stack.dropLast

/-- Hand the operands of a run on a separate stack to `stack`, all of them or none. -/
def Run.appendTo (stack : Stack) : Run → Run
  | .done own => .done (stack ++ own)
  | .stuck error _ => .stuck error stack

mutual

def Statement.runOn : Statement → Stack → Run
  | .push v, stack => .done (stack ++ [v])
  | .branch b, stack => b.runOn stack

/-- Run a branch: on an empty stack first, the remainder then goes on top of `stack`. -/
def Branch.runOn : Branch → Stack → Run
  | ⟨pre, cond, body, elbr, el, post⟩, stack =>
    Run.appendTo stack <|
      (((runAll pre []).andThen (runAll cond)).andThen fun tested =>
        testTop (.branch ⟨pre, cond, body, elbr, el, post⟩) tested (runAll body)
          fun rest => runClauses elbr rest (runAlternative el)).andThen (runAll post)

/-- Run a sequence; what its statements pushed before one got stuck stays. -/
def runAll : List Statement → Stack → Run
  | [], stack => .done stack
  | s :: rest, stack => (s.runOn stack).andThen (runAll rest)

/-- Test the clauses in order on one stack and run the body of the first that passes;
`otherwise` runs when none does. -/
def runClauses : List Elbr → Stack → (Stack → Run) → Run
  | [], stack, otherwise => otherwise stack
  | ⟨cond, body⟩ :: rest, stack, otherwise =>
    (runAll cond stack).andThen fun tested =>
      testTop (.elbr ⟨cond, body⟩) tested (runAll body) fun below => runClauses rest below otherwise

def runAlternative : Option (List Statement) → Stack → Run
  | none, stack => .done stack
  | some body, stack => runAll body stack

end

/-- What a statement leaves when run on its own. -/
def Statement.flow (s : Statement) : Except FlowError Stack :=
  (s.runOn []).result

def Branch.flow (b : Branch) : Except FlowError Stack :=
  (b.runOn []).result

def flowAll (stmts : List Statement) : Except FlowError Stack :=
  (runAll stmts []).result

/-- A branch is valid when no condition in it is tested on an empty stack. -/
def Branch.isValid (b : Branch) : Bool :=
  b.flow.isOk

end BranchCases
