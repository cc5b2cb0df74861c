import BranchCases.Proofs.Nesting
import Mathlib.Data.List.Forall2
import Mathlib.Data.Option.Defs

/-
Sequences in place of one another. Main result: what a branch leaves depends on the sequences
in it only through what each of them leaves, at any depth; so a nested branch may be replaced
by pushes of its operands.
-/
namespace BranchCases

/-- Both outcomes are failures, whatever their causes, or both leave the same operands. -/
inductive Agree : Except FlowError Stack → Except FlowError Stack → Prop where
  | failed (error error' : FlowError) : Agree (.error error) (.error error')
  | done (stack : Stack) : Agree (.ok stack) (.ok stack)

theorem Agree.refl (x : Except FlowError Stack) : Agree x x := by
  cases x with
  | error error => exact .failed error error
  | ok stack => exact .done stack

theorem Agree.bind {x y : Except FlowError Stack} {f g : Stack → Except FlowError Stack}
    (h : Agree x y) (hnext : ∀ stack, Agree (f stack) (g stack)) : Agree (x.bind f) (y.bind g) := by
  cases h with
  | failed error error' => exact .failed error error'
  | done stack => exact hnext stack

theorem Agree.map {x y : Except FlowError Stack} (h : Agree x y) (f : Stack → Stack) :
    Agree (x.map f) (y.map f) := by
  cases h with
  | failed error error' => exact .failed error error'
  | done stack => exact .done (f stack)

/-- The sequences leave the same operands, or neither can run. -/
def SameFlow (u v : List Statement) : Prop :=
  Agree (flowAll u) (flowAll v)

theorem SameFlow.refl (u : List Statement) : SameFlow u u :=
  Agree.refl (flowAll u)

/-! ## Sequences -/

theorem SameFlow.append {u u' v v' : List Statement} (hu : SameFlow u u') (hv : SameFlow v v') :
    SameFlow (u ++ v) (u' ++ v') := by
  unfold SameFlow
  rw [flowAll_append, flowAll_append]
  exact hu.bind fun left => hv.map (left ++ ·)

theorem SameFlow.agree_runAll {u v : List Statement} (h : SameFlow u v) (stack : Stack) :
    Agree (runAll u stack).result (runAll v stack).result := by
  rw [result_runAll, result_runAll]
  exact h.map (stack ++ ·)

/-! ## Branches -/

theorem agree_testTop (sender sender' : Sender) (stack : Stack)
    {passed passed' failed failed' : Stack → Run}
    (hpassed : ∀ rest, Agree (passed rest).result (passed' rest).result)
    (hfailed : ∀ rest, Agree (failed rest).result (failed' rest).result) :
    Agree (testTop sender stack passed failed).result
      (testTop sender' stack passed' failed').result := by
  rcases List.eq_nil_or_concat' stack with rfl | ⟨below, v, rfl⟩
  · exact .failed _ _
  · rw [testTop_append, testTop_append]
    by_cases truth : v.isTruthy
    · rw [if_pos truth, if_pos truth]
      exact hpassed below
    · rw [if_neg truth, if_neg truth]
      exact hfailed below

structure Elbr.SameFlows (c c' : Elbr) : Prop where
  cond : SameFlow c.cond c'.cond
  body : SameFlow c.body c'.body

theorem Elbr.SameFlows.refl (c : Elbr) : c.SameFlows c :=
  ⟨SameFlow.refl c.cond, SameFlow.refl c.body⟩

theorem agree_runClauses {elbr elbr' : List Elbr} {otherwise otherwise' : Stack → Run}
    (helbr : List.Forall₂ Elbr.SameFlows elbr elbr')
    (hlast : ∀ rest, Agree (otherwise rest).result (otherwise' rest).result) (stack : Stack) :
    Agree (runClauses elbr stack otherwise).result (runClauses elbr' stack otherwise').result := by
  induction helbr generalizing stack with
  | nil => exact hlast stack
  | @cons c c' rest rest' hclause _ ih =>
      obtain ⟨cond, body⟩ := c
      obtain ⟨cond', body'⟩ := c'
      rw [runClauses, runClauses, Run.result_andThen, Run.result_andThen]
      exact (hclause.cond.agree_runAll stack).bind fun tested =>
        agree_testTop _ _ tested hclause.body.agree_runAll ih

theorem agree_runAlternative {el el' : Option (List Statement)} (h : Option.Rel SameFlow el el')
    (stack : Stack) : Agree (runAlternative el stack).result (runAlternative el' stack).result := by
  cases h with
  | none => exact .done stack
  | some hbody => exact hbody.agree_runAll stack

/-- The branches have the same slots filled, with sequences of the same flow. -/
structure Branch.SameFlows (b b' : Branch) : Prop where
  pre : SameFlow b.pre b'.pre
  cond : SameFlow b.cond b'.cond
  body : SameFlow b.body b'.body
  elbr : List.Forall₂ Elbr.SameFlows b.elbr b'.elbr
  el : Option.Rel SameFlow b.el b'.el
  post : SameFlow b.post b'.post

theorem Branch.SameFlows.flow {b b' : Branch} (h : b.SameFlows b') : Agree b.flow b'.flow := by
  rw [b.flow_eq, b'.flow_eq]
  refine h.pre.bind fun pre => h.cond.bind fun cond => ?_
  refine Agree.bind ?_ fun left => h.post.map (left ++ ·)
  exact agree_testTop _ _ (pre ++ cond) h.body.agree_runAll
    (agree_runClauses h.elbr (agree_runAlternative h.el))

/-! ## Places of any depth -/

/-- A place for a sequence in a branch; in a clause, with the clauses before and after it. -/
inductive Place where
  | pre | cond | body | el | post
  | elbrCond (before : List Elbr) (body : List Statement) (after : List Elbr)
  | elbrBody (before : List Elbr) (cond : List Statement) (after : List Elbr)

/-- The branch with a sequence at a place. -/
def Branch.put (b : Branch) (stmts : List Statement) : Place → Branch
  | .pre => { b with pre := stmts }
  | .cond => { b with cond := stmts }
  | .body => { b with body := stmts }
  | .el => { b with el := some stmts }
  | .post => { b with post := stmts }
  | .elbrCond before body after => { b with elbr := before ++ ⟨stmts, body⟩ :: after }
  | .elbrBody before cond after => { b with elbr := before ++ ⟨cond, stmts⟩ :: after }

/-- A sequence with a gap for a segment, in the sequence itself or in a branch of it. -/
inductive Gapped where
  | here (before after : List Statement)
  | within (before : List Statement) (b : Branch) (place : Place) (inner : Gapped)
      (after : List Statement)

def Gapped.fill : Gapped → List Statement → List Statement
  | .here before after, segment => before ++ segment ++ after
  | .within before b place inner after, segment =>
    before ++ [.branch (b.put (inner.fill segment) place)] ++ after

theorem sameFlows_clauses (elbr : List Elbr) : List.Forall₂ Elbr.SameFlows elbr elbr :=
  List.forall₂_same.mpr fun c _ => Elbr.SameFlows.refl c

theorem Branch.SameFlows.refl (b : Branch) : b.SameFlows b where
  pre := SameFlow.refl b.pre
  cond := SameFlow.refl b.cond
  body := SameFlow.refl b.body
  elbr := sameFlows_clauses b.elbr
  el := by
    cases b.el with
    | none => exact .none
    | some body => exact .some (SameFlow.refl body)
  post := SameFlow.refl b.post

theorem Branch.sameFlows_put (b : Branch) {u v : List Statement} (h : SameFlow u v)
    (place : Place) : (b.put u place).SameFlows (b.put v place) := by
  have hrefl := Branch.SameFlows.refl b
  cases place with
  | pre => exact { hrefl with pre := h }
  | cond => exact { hrefl with cond := h }
  | body => exact { hrefl with body := h }
  | el => exact { hrefl with el := .some h }
  | post => exact { hrefl with post := h }
  | elbrCond before body after =>
      have hclause : Elbr.SameFlows ⟨u, body⟩ ⟨v, body⟩ := ⟨h, SameFlow.refl body⟩
      exact { hrefl with
        elbr := List.rel_append (sameFlows_clauses before)
          (.cons hclause (sameFlows_clauses after)) }
  | elbrBody before cond after =>
      have hclause : Elbr.SameFlows ⟨cond, u⟩ ⟨cond, v⟩ := ⟨SameFlow.refl cond, h⟩
      exact { hrefl with
        elbr := List.rel_append (sameFlows_clauses before)
          (.cons hclause (sameFlows_clauses after)) }

theorem Gapped.sameFlow_fill (gapped : Gapped) {u v : List Statement} (h : SameFlow u v) :
    SameFlow (gapped.fill u) (gapped.fill v) := by
  induction gapped with
  | here before after => exact ((SameFlow.refl before).append h).append (SameFlow.refl after)
  | within before b place inner after ih =>
      have hbranch : SameFlow [.branch (b.put (inner.fill u) place)]
          [.branch (b.put (inner.fill v) place)] := by
        unfold SameFlow
        rw [flowAll_singleton, flowAll_singleton]
        exact (b.sameFlows_put ih place).flow
      exact ((SameFlow.refl before).append hbranch).append (SameFlow.refl after)

/-- A branch that runs may be replaced by pushes of what it leaves. -/
theorem Branch.sameFlow_pushes {b : Branch} {left : Stack} (h : b.flow = .ok left) :
    SameFlow [.branch b] (pushes left) := by
  have hb : (Statement.branch b).flow = .ok left := h
  unfold SameFlow
  rw [flowAll_singleton, flowAll_pushes, hb]
  exact .done left

/-! ## Every segment stands at a place -/

/-- A sequence of the branch, in one of its slots or in a branch nested in it. -/
inductive Branch.Holds : Branch → List Statement → Prop where
  | pre (b : Branch) : Holds b b.pre
  | cond (b : Branch) : Holds b b.cond
  | body (b : Branch) : Holds b b.body
  | elbrCond {b : Branch} {c : Elbr} (h : c ∈ b.elbr) : Holds b c.cond
  | elbrBody {b : Branch} {c : Elbr} (h : c ∈ b.elbr) : Holds b c.body
  | el {b : Branch} {body : List Statement} (h : b.el = some body) : Holds b body
  | post (b : Branch) : Holds b b.post
  | nested {b inner : Branch} {stmts stmts' : List Statement} (h : Holds b stmts)
      (hmem : .branch inner ∈ stmts) (hinner : Holds inner stmts') : Holds b stmts'

theorem Branch.Holds.exists_fill {b : Branch} {stmts segment : List Statement} (h : b.Holds stmts)
    (gapped : Gapped) (hfill : gapped.fill segment = stmts) :
    ∃ place gapped', b.put (Gapped.fill gapped' segment) place = b := by
  induction h generalizing gapped with
  | pre b =>
      cases b
      exact ⟨.pre, gapped, by rw [Branch.put, hfill]⟩
  | cond b =>
      cases b
      exact ⟨.cond, gapped, by rw [Branch.put, hfill]⟩
  | body b =>
      cases b
      exact ⟨.body, gapped, by rw [Branch.put, hfill]⟩
  | post b =>
      cases b
      exact ⟨.post, gapped, by rw [Branch.put, hfill]⟩
  | @el b body h =>
      cases b
      cases h
      exact ⟨.el, gapped, by rw [Branch.put, hfill]⟩
  | @elbrCond b c h =>
      obtain ⟨cond, body⟩ := c
      cases b
      obtain ⟨before, after, rfl⟩ := List.append_of_mem h
      exact ⟨.elbrCond before body after, gapped, by rw [Branch.put, hfill]⟩
  | @elbrBody b c h =>
      obtain ⟨cond, body⟩ := c
      cases b
      obtain ⟨before, after, rfl⟩ := List.append_of_mem h
      exact ⟨.elbrBody before cond after, gapped, by rw [Branch.put, hfill]⟩
  | @nested b inner stmts stmts' h hmem hinner ih ihinner =>
      obtain ⟨place, inside, hput⟩ := ihinner gapped hfill
      obtain ⟨before, after, rfl⟩ := List.append_of_mem hmem
      refine ih (.within before inner place inside after) ?_
      rw [Gapped.fill, hput, List.append_assoc]
      rfl

/-- Equivalent segments can replace one another at every place of a tree, and every segment of
every sequence of a tree stands at such a place: the outcome of the whole stays the same. So does
it where a nested branch that runs is replaced by pushes of what it leaves. -/
theorem flow_agrees_of_replaced :
    (∀ (root : Branch) (place : Place) (gapped : Gapped) (u v : List Statement), SameFlow u v →
      Agree (root.put (gapped.fill u) place).flow (root.put (gapped.fill v) place).flow) ∧
    (∀ (root : Branch) (before segment after : List Statement),
      root.Holds (before ++ segment ++ after) →
      ∃ place gapped, root.put (Gapped.fill gapped segment) place = root) ∧
    ∀ (root : Branch) (place : Place) (gapped : Gapped) (nested : Branch) (left : Stack),
      nested.flow = .ok left →
      Agree (root.put (gapped.fill [.branch nested]) place).flow
        (root.put (gapped.fill (pushes left)) place).flow := by
  have hreplaced (root : Branch) (place : Place) (gapped : Gapped) (u v : List Statement)
      (h : SameFlow u v) :
      Agree (root.put (gapped.fill u) place).flow (root.put (gapped.fill v) place).flow :=
    (root.sameFlows_put (gapped.sameFlow_fill h) place).flow
  refine ⟨hreplaced, ?_, ?_⟩
  · intro root before segment after h
    exact h.exists_fill (.here before after) rfl
  · intro root place gapped nested left h
    exact hreplaced root place gapped _ _ (Branch.sameFlow_pushes h)

/-- A branch that leaves an operand from its body and one from behind it. -/
def pairBranch : Branch where
  cond := pushes [.bool true]
  body := pushes [.int 1]
  post := pushes [.bool false]

/-- The condition of a clause, with a gap in the body of a branch that it ends in. -/
def gappedCondition : Gapped :=
  .within (pushes [.nil]) { cond := pushes [.int 0] } .body (.here (pushes [.string "s"]) []) []

/-- A branch whose condition fails, so that its clauses are tried. -/
def clauseRoot : Branch where
  cond := pushes [.bool false]
  el := some (pushes [.int 7])

theorem flow_agrees_of_replaced_condition :
    pairBranch.flow = .ok [.int 1, .bool false] ∧
      SameFlow [.branch pairBranch] (pushes [.int 1, .bool false]) ∧
      pairBranch.Holds ([] ++ pushes [.int 1] ++ []) ∧
      (∃ place gapped, pairBranch.put (Gapped.fill gapped (pushes [.int 1])) place = pairBranch) ∧
      (clauseRoot.put (gappedCondition.fill (pushes [.int 1, .bool false]))
        (.elbrCond [] [] [])).flow = .ok [.nil, .string "s", .int 1, .int 7] ∧
      Agree (clauseRoot.put (gappedCondition.fill [.branch pairBranch]) (.elbrCond [] [] [])).flow
        (clauseRoot.put (gappedCondition.fill (pushes [.int 1, .bool false]))
          (.elbrCond [] [] [])).flow ∧
      Agree (clauseRoot.put (gappedCondition.fill [.branch pairBranch]) .pre).flow
        (clauseRoot.put (gappedCondition.fill (pushes [.int 1, .bool false])) .pre).flow := by
  have hflow : pairBranch.flow = .ok [.int 1, .bool false] := rfl
  have hsame := Branch.sameFlow_pushes hflow
  have hholds : pairBranch.Holds ([] ++ pushes [.int 1] ++ []) := .body pairBranch
  exact ⟨hflow, hsame, hholds, flow_agrees_of_replaced.2.1 _ _ _ _ hholds, rfl,
    flow_agrees_of_replaced.1 clauseRoot (.elbrCond [] [] []) gappedCondition _ _ hsame,
    flow_agrees_of_replaced.2.2 clauseRoot .pre gappedCondition pairBranch _ hflow⟩

end BranchCases
