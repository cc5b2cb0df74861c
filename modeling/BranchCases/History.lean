import BranchCases.Flow

/-
One operand stack that lives through a history of runs, successful or not.
-/
namespace BranchCases

/-- Something to run on a stack that is already there. -/
inductive Step where
  | push (v : Value)
  | statement (s : Statement)
  | branch (b : Branch)
  | sequence (stmts : List Statement)

/-- Run one step on top of a stack. -/
def Step.runOn : Step → Stack → Run
  | .push v, stack => .done (stack ++ [v])
  | .statement s, stack => s.runOn stack
  | .branch b, stack => b.runOn stack
  | .sequence stmts, stack => runAll stmts stack

/-- The run of every step, each on the stack that the one before it left, stuck or not. -/
def replay : List Step → Stack → List Run
  | [], _ => []
  | step :: rest, stack =>
    let run := step.runOn stack
    run :: replay rest run.stack

end BranchCases
