import BranchCases.History
import BranchCases.Proofs.Runs
import Mathlib.Data.List.Forall2

/-
What the steps of a history add to the stack that they share. Main result: each step adds, on
top of what is there, what its statements leave on their own up to the first that fails, and
ends as it would on an empty stack.
-/
namespace BranchCases

/-- What a step adds to a stack, and its failure where it does not come to its end. -/
structure Effect where
  added : Stack
  failure : Option FlowError

/-- The run on a stack that has the effect. -/
def Effect.on (effect : Effect) (stack : Stack) : Run :=
  match effect.failure with
  | none => .done (stack ++ effect.added)
  | some error => .stuck error (stack ++ effect.added)

/-- All operands that are left are added, and none where there is a failure. -/
def Effect.ofFlow : Except FlowError Stack → Effect
  | .ok own => ⟨own, none⟩
  | .error error => ⟨[], some error⟩

/-- The effect of a step, from what its statements leave on their own. A sequence that fails
keeps what the statements before the first failure leave. -/
inductive Step.HasEffect : Step → Effect → Prop where
  | push (v : Value) : HasEffect (.push v) ⟨[v], none⟩
  | statement (s : Statement) : HasEffect (.statement s) (.ofFlow s.flow)
  | branch (b : Branch) : HasEffect (.branch b) (.ofFlow b.flow)
  | sequence {stmts : List Statement} {owns : List Stack}
      (h : stmts.mapM Statement.flow = .ok owns) : HasEffect (.sequence stmts) ⟨owns.flatten, none⟩
  | sequenceFails {front rest : List Statement} {bad : Statement} {owns : List Stack}
      {error : FlowError} (hfront : front.mapM Statement.flow = .ok owns)
      (hbad : bad.flow = .error error) :
      HasEffect (.sequence (front ++ bad :: rest)) ⟨owns.flatten, some error⟩

@[simp] theorem Effect.stack_on (effect : Effect) (stack : Stack) :
    (effect.on stack).stack = stack ++ effect.added := by
  unfold Effect.on
  cases effect.failure with
  | none => rfl
  | some error => rfl

/-! ## One step -/

theorem Branch.runOn_eq_on (b : Branch) (stack : Stack) :
    b.runOn stack = (Effect.ofFlow b.flow).on stack := by
  rw [Branch.flow, b.runOn_eq, b.runOn_eq]
  cases (((runAll b.pre []).andThen (runAll b.cond)).andThen b.test).andThen (runAll b.post) with
  | done own => rfl
  | stuck error own => exact congrArg (Run.stuck error) (List.append_nil stack).symm

theorem Statement.runOn_eq_on (s : Statement) (stack : Stack) :
    s.runOn stack = (Effect.ofFlow s.flow).on stack := by
  cases s with
  | push v => rfl
  | branch b => exact b.runOn_eq_on stack

theorem mapM_flow_cons {s : Statement} {stmts : List Statement} {own : Stack} {owns : List Stack}
    (hs : s.flow = .ok own) (hrest : stmts.mapM Statement.flow = .ok owns) :
    (s :: stmts).mapM Statement.flow = .ok (own :: owns) := by
  rw [List.mapM_cons, hs, hrest]
  rfl

/-- The effect of a sequence after that of a statement that comes to its end. -/
theorem Step.HasEffect.cons {s : Statement} {stmts : List Statement} {own : Stack}
    {effect : Effect} (hs : s.flow = .ok own) (h : HasEffect (.sequence stmts) effect) :
    HasEffect (.sequence (s :: stmts)) ⟨own ++ effect.added, effect.failure⟩ := by
  cases h with
  | sequence hstmts => exact .sequence (mapM_flow_cons hs hstmts)
  | sequenceFails hfront hbad => exact .sequenceFails (mapM_flow_cons hs hfront) hbad

theorem exists_effect_runAll (stmts : List Statement) :
    ∃ effect, Step.HasEffect (.sequence stmts) effect ∧
      ∀ stack, runAll stmts stack = effect.on stack := by
  have hnone : ([] : List Statement).mapM Statement.flow = .ok [] := rfl
  induction stmts with
  | nil =>
      refine ⟨_, .sequence hnone, ?_⟩
      intro stack
      exact congrArg Run.done (List.append_nil stack).symm
  | cons s rest ih =>
      cases hs : s.flow with
      | error error =>
          refine ⟨_, .sequenceFails hnone hs, ?_⟩
          intro stack
          rw [runAll, s.runOn_eq_on, hs]
          rfl
      | ok own =>
          obtain ⟨effect, heffect, hrest⟩ := ih
          refine ⟨_, heffect.cons hs, ?_⟩
          intro stack
          rw [runAll, s.runOn_eq_on, hs]
          change runAll rest (stack ++ own) = _
          rw [hrest, Effect.on, Effect.on, List.append_assoc]

theorem Step.exists_effect (step : Step) :
    ∃ effect, step.HasEffect effect ∧ ∀ stack, step.runOn stack = effect.on stack := by
  cases step with
  | push v => exact ⟨_, .push v, fun stack => rfl⟩
  | statement s => exact ⟨_, .statement s, s.runOn_eq_on⟩
  | branch b => exact ⟨_, .branch b, b.runOn_eq_on⟩
  | sequence stmts => exact exists_effect_runAll stmts

/-! ## A history -/

/-- The runs of steps with these effects, each on the stack that the one before it left. -/
def replayEffects : List Effect → Stack → List Run
  | [], _ => []
  | effect :: rest, stack => effect.on stack :: replayEffects rest (stack ++ effect.added)

theorem exists_effects_replay (steps : List Step) :
    ∃ effects : List Effect,
      List.Forall₂ (fun step effect => step.HasEffect effect ∧ step.runOn [] = effect.on [])
        steps effects ∧
      ∀ stack, replay steps stack = replayEffects effects stack := by
  induction steps with
  | nil => exact ⟨[], .nil, fun _ => rfl⟩
  | cons step steps ih =>
      obtain ⟨effect, heffect, hrun⟩ := step.exists_effect
      obtain ⟨effects, heffects, hreplay⟩ := ih
      refine ⟨effect :: effects, .cons ⟨heffect, hrun []⟩ heffects, ?_⟩
      intro stack
      rw [replay, replayEffects, hrun, hreplay, Effect.stack_on]

theorem replayEffects_prefixes (effects : List Effect) (stack : Stack) :
    (stack :: (replayEffects effects stack).map Run.stack).Pairwise (· <+: ·) := by
  induction effects generalizing stack with
  | nil => exact List.pairwise_singleton _ stack
  | cons effect effects ih =>
      have hrest := ih (stack ++ effect.added)
      rw [replayEffects, List.map_cons, Effect.stack_on]
      refine List.pairwise_cons.mpr ⟨?_, hrest⟩
      intro later hlater
      have hfirst : stack <+: stack ++ effect.added := List.prefix_append stack effect.added
      rcases List.mem_cons.mp hlater with rfl | hlater
      · exact hfirst
      · exact hfirst.trans ((List.pairwise_cons.mp hrest).1 later hlater)

/-- A history of steps on one stack. The effects of the steps depend on the steps alone, not on
the stack; each step adds its own to the stack as it finds it and ends as on an empty stack, so
whatever lies on the stack stays there, below all that comes later. -/
theorem replay_has_effects (steps : List Step) :
    ∃ effects : List Effect,
      List.Forall₂ (fun step effect => step.HasEffect effect ∧ step.runOn [] = effect.on [])
        steps effects ∧
      ∀ stack : Stack, replay steps stack = replayEffects effects stack ∧
        (stack :: (replay steps stack).map Run.stack).Pairwise (· <+: ·) := by
  obtain ⟨effects, heffects, hreplay⟩ := exists_effects_replay steps
  refine ⟨effects, heffects, ?_⟩
  intro stack
  rw [hreplay]
  exact ⟨rfl, replayEffects_prefixes effects stack⟩

-- A branch that fails adds nothing, a sequence keeps what stands before the failure.
example : (replay [.branch {}, .sequence [.push (.int 1), .branch {}, .push (.int 2)]]
    [.nil]).map Run.stack = [[.nil], [.nil, .int 1]] := rfl

end BranchCases
