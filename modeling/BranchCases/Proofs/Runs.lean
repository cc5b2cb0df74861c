import BranchCases.Flow
import Mathlib.Data.List.Basic

/-
How runs are put together. Main results: a run on top of some operands is the run on an
empty stack with those operands beneath it (`runAll_over`), and what a branch leaves is put
together from what its slots leave on their own (`Branch.flow_eq`).
-/
namespace BranchCases

@[simp] theorem Run.andThen_done (stack : Stack) (next : Stack → Run) :
    (Run.done stack).andThen next = next stack := rfl

@[simp] theorem Run.andThen_stuck (error : FlowError) (stack : Stack) (next : Stack → Run) :
    (Run.stuck error stack).andThen next = .stuck error stack := rfl

theorem Run.andThen_eq_done {run : Run} {next : Stack → Run} {out : Stack} :
    run.andThen next = .done out ↔ ∃ mid, run = .done mid ∧ next mid = .done out := by
  cases run with
  | done stack => simp
  | stuck error stack => simp

theorem Run.appendTo_eq_done {run : Run} {base out : Stack} :
    run.appendTo base = .done out ↔ ∃ own, run = .done own ∧ out = base ++ own := by
  cases run with
  | done own => simp [Run.appendTo, eq_comm]
  | stuck error own => simp [Run.appendTo]

theorem Run.result_eq_ok {run : Run} {out : Stack} : run.result = .ok out ↔ run = .done out := by
  cases run with
  | done stack => simp [Run.result]
  | stuck error stack => simp [Run.result]

theorem Run.andThen_assoc (run : Run) (first second : Stack → Run) :
    (run.andThen first).andThen second = run.andThen fun stack => (first stack).andThen second := by
  cases run with
  | done stack => rfl
  | stuck error stack => rfl

theorem Run.result_andThen (run : Run) (next : Stack → Run) :
    (run.andThen next).result = run.result.bind fun stack => (next stack).result := by
  cases run with
  | done stack => rfl
  | stuck error stack => rfl

theorem Run.result_appendTo (run : Run) (base : Stack) :
    (run.appendTo base).result = run.result.map (base ++ ·) := by
  cases run with
  | done own => rfl
  | stuck error own => rfl

/-! ## The test of a condition -/

theorem testTop_append (sender : Sender) (below : Stack) (v : Value) (passed failed : Stack → Run) :
    testTop sender (below ++ [v]) passed failed =
      if v.isTruthy then passed below else failed below := by
  simp [testTop]

/-- A test that goes on has found an operand to take. -/
theorem testTop_eq_done {sender : Sender} {stack out : Stack} {passed failed : Stack → Run}
    (h : testTop sender stack passed failed = .done out) :
    ∃ below v, stack = below ++ [v] ∧
      (if v.isTruthy then passed below else failed below) = .done out := by
  rcases List.eq_nil_or_concat' stack with rfl | ⟨below, v, rfl⟩
  · cases h
  · rw [testTop_append] at h
    exact ⟨below, v, rfl, h⟩

/-! ## The frame law -/

/-- The run with more operands beneath those that it worked on. -/
def Run.over (base : Stack) : Run → Run
  | .done own => .done (base ++ own)
  | .stuck error own => .stuck error (base ++ own)

theorem Run.over_andThen (base : Stack) (run : Run) {next : Stack → Run}
    (h : ∀ own, next (base ++ own) = (next own).over base) :
    (run.over base).andThen next = (run.andThen next).over base := by
  cases run with
  | done own => exact h own
  | stuck error own => rfl

theorem Run.result_over (base : Stack) (run : Run) :
    (run.over base).result = run.result.map (base ++ ·) := by
  cases run with
  | done own => rfl
  | stuck error own => rfl

theorem Run.over_appendTo (base stack : Stack) (run : Run) :
    run.appendTo (base ++ stack) = (run.appendTo stack).over base := by
  cases run with
  | done own => simp [Run.appendTo, Run.over]
  | stuck error own => simp [Run.appendTo, Run.over]

theorem Branch.runOn_over (b : Branch) (base stack : Stack) :
    b.runOn (base ++ stack) = (b.runOn stack).over base := by
  obtain ⟨pre, cond, body, elbr, el, post⟩ := b
  simp only [Branch.runOn, Run.over_appendTo]

theorem Statement.runOn_over (s : Statement) (base stack : Stack) :
    s.runOn (base ++ stack) = (s.runOn stack).over base := by
  cases s with
  | push v => simp [Statement.runOn, Run.over]
  | branch b => simpa only [Statement.runOn] using b.runOn_over base stack

/-- No statement of a sequence looks at the operands beneath. -/
theorem runAll_over (stmts : List Statement) (base stack : Stack) :
    runAll stmts (base ++ stack) = (runAll stmts stack).over base := by
  induction stmts generalizing stack with
  | nil => simp [runAll, Run.over]
  | cons s rest ih =>
      simp only [runAll, s.runOn_over]
      exact Run.over_andThen base (s.runOn stack) ih

/-! ## What is left by a sequence -/

theorem result_runAll (stmts : List Statement) (stack : Stack) :
    (runAll stmts stack).result = (flowAll stmts).map (stack ++ ·) := by
  have h := runAll_over stmts stack []
  rw [List.append_nil] at h
  rw [h, Run.result_over, flowAll]

theorem runAll_eq_done {stmts : List Statement} {stack out : Stack} :
    runAll stmts stack = .done out ↔ ∃ own, flowAll stmts = .ok own ∧ out = stack ++ own := by
  rw [← Run.result_eq_ok, result_runAll]
  cases flowAll stmts with
  | error e => simp [Except.map]
  | ok own => simp [Except.map, eq_comm]

theorem runAll_append (u v : List Statement) (stack : Stack) :
    runAll (u ++ v) stack = (runAll u stack).andThen (runAll v) := by
  induction u generalizing stack with
  | nil => rfl
  | cons s u ih =>
      rw [List.cons_append, runAll, runAll, Run.andThen_assoc]
      exact congrArg _ (funext ih)

theorem flowAll_append (u v : List Statement) :
    flowAll (u ++ v) = (flowAll u).bind fun left => (flowAll v).map (left ++ ·) := by
  rw [flowAll, runAll_append, Run.result_andThen, ← flowAll]
  exact congrArg _ (funext fun left => result_runAll v left)

theorem flowAll_singleton (s : Statement) : flowAll [s] = s.flow := by
  rw [flowAll, runAll, Run.result_andThen, Statement.flow]
  cases (s.runOn []).result with
  | error e => rfl
  | ok left => rfl

theorem flowAll_append_eq_ok {u v : List Statement} {own : Stack} :
    flowAll (u ++ v) = .ok own ↔
      ∃ left right, flowAll u = .ok left ∧ flowAll v = .ok right ∧ own = left ++ right := by
  rw [flowAll_append]
  cases flowAll u with
  | error e => simp [Except.bind]
  | ok left =>
      cases flowAll v with
      | error e => simp [Except.bind, Except.map]
      | ok right => simp [Except.bind, Except.map, eq_comm]

theorem flowAll_cons_eq_ok {s : Statement} {rest : List Statement} {own : Stack} :
    flowAll (s :: rest) = .ok own ↔
      ∃ left right, s.flow = .ok left ∧ flowAll rest = .ok right ∧ own = left ++ right := by
  rw [← List.singleton_append, flowAll_append_eq_ok, flowAll_singleton]

/-! ## Sequences of pushes -/

/-- A sequence without branches. -/
def OnlyPushes (stmts : List Statement) : Prop :=
  ∀ s ∈ stmts, ∃ v, s = .push v

theorem onlyPushes_pushes (values : List Value) : OnlyPushes (pushes values) := by
  intro s hs
  obtain ⟨v, -, rfl⟩ := List.mem_map.mp hs
  exact ⟨v, rfl⟩

theorem OnlyPushes.exists_pushes {stmts : List Statement} (h : OnlyPushes stmts) :
    ∃ values, stmts = pushes values := by
  induction stmts with
  | nil => exact ⟨[], rfl⟩
  | cons s rest ih =>
      obtain ⟨⟨v, rfl⟩, hrest⟩ := List.forall_mem_cons.mp h
      obtain ⟨values, rfl⟩ := ih hrest
      exact ⟨v :: values, rfl⟩

theorem runAll_pushes (values : List Value) (stack : Stack) :
    runAll (pushes values) stack = .done (stack ++ values) := by
  induction values generalizing stack with
  | nil => rw [List.append_nil]; rfl
  | cons v values ih =>
      have hrest := ih (stack ++ [v])
      rw [List.append_assoc] at hrest
      exact hrest

theorem flowAll_pushes (values : List Value) : flowAll (pushes values) = .ok values := by
  rw [flowAll, runAll_pushes]
  rfl

theorem OnlyPushes.exists_flow {stmts : List Statement} (h : OnlyPushes stmts) :
    ∃ own, flowAll stmts = .ok own := by
  obtain ⟨values, rfl⟩ := h.exists_pushes
  exact ⟨values, flowAll_pushes values⟩

theorem OnlyPushes.length_flow {stmts : List Statement} {own : Stack} (h : OnlyPushes stmts)
    (hown : flowAll stmts = .ok own) : own.length = stmts.length := by
  obtain ⟨values, rfl⟩ := h.exists_pushes
  rw [flowAll_pushes] at hown
  cases hown
  simp [pushes]

/-! ## The slots of a branch -/

/-- What becomes of the operands that the condition of a branch is tested on: the test, then
the body or the clauses. -/
def Branch.test (b : Branch) (tested : Stack) : Run :=
  testTop (.branch b) tested (runAll b.body) fun rest =>
    runClauses b.elbr rest (runAlternative b.el)

theorem Branch.runOn_eq (b : Branch) (stack : Stack) :
    b.runOn stack = Run.appendTo stack
      ((((runAll b.pre []).andThen (runAll b.cond)).andThen b.test).andThen (runAll b.post)) := by
  obtain ⟨pre, cond, body, elbr, el, post⟩ := b
  rfl

/-- What a branch leaves, from what its slots leave on their own. -/
theorem Branch.flow_eq (b : Branch) :
    b.flow = (flowAll b.pre).bind fun pre => (flowAll b.cond).bind fun cond =>
      (b.test (pre ++ cond)).result.bind fun left => (flowAll b.post).map (left ++ ·) := by
  rw [Branch.flow, b.runOn_eq, Run.result_appendTo]
  simp only [Run.result_andThen, result_runAll]
  cases flowAll b.pre with
  | error e => rfl
  | ok pre =>
      cases flowAll b.cond with
      | error e => rfl
      | ok cond =>
          simp only [Except.bind, Except.map, List.nil_append]
          cases (b.test (pre ++ cond)).result with
          | error e => rfl
          | ok left => cases flowAll b.post <;> rfl

end BranchCases
