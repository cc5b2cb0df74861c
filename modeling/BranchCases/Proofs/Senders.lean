import BranchCases.Proofs.FirstMatch
import BranchCases.Proofs.Replacing

/-
Where a failure comes from. A sequence fails with the failure of one of its branches, a branch with
that of one of its sequences or by a test of its own; so the failure of a whole tree is that of a
test in it. Main result: the sender is the construct whose test found no operand.
-/
namespace BranchCases

theorem Branch.Holds.sizeOf_lt {b : Branch} {stmts : List Statement} (h : b.Holds stmts) :
    sizeOf stmts < sizeOf b := by
  induction h with
  | pre b | cond b | body b | post b =>
      cases b
      simp only [Branch.mk.sizeOf_spec]
      omega
  | @elbrCond b clause hclause =>
      have hlt := List.sizeOf_lt_of_mem hclause
      cases b
      cases clause
      simp only [Branch.mk.sizeOf_spec, Elbr.mk.sizeOf_spec] at hlt ⊢
      omega
  | @elbrBody b clause hclause =>
      have hlt := List.sizeOf_lt_of_mem hclause
      cases b
      cases clause
      simp only [Branch.mk.sizeOf_spec, Elbr.mk.sizeOf_spec] at hlt ⊢
      omega
  | @el b body hel =>
      cases b
      cases hel
      simp only [Branch.mk.sizeOf_spec, Option.some.sizeOf_spec]
      omega
  | @nested b inner stmts stmts' hholds hmem hinner ih ihinner =>
      have hlt := List.sizeOf_lt_of_mem hmem
      rw [Statement.branch.sizeOf_spec] at hlt
      omega

/-- The branch is `x`, or `x` stands in one of its sequences, at any depth. -/
inductive Branch.Contains : Branch → Branch → Prop where
  | self (b : Branch) : Contains b b
  | within {b inner x : Branch} {stmts : List Statement} (hholds : b.Holds stmts)
      (hmem : .branch inner ∈ stmts) (hinner : inner.Contains x) : Contains b x

/-- A test of the branch itself finds no operand: its own, or that of one of its clauses. -/
inductive Branch.RunsDry (b : Branch) : Sender → Prop where
  | first (hpre : flowAll b.pre = .ok []) (hcond : flowAll b.cond = .ok []) :
      RunsDry b (.branch b)
  | clause {below : Stack} {v : Value} {before after : List Elbr} {clause : Elbr}
      (hfirst : b.TestsFirst below v) (hfails : v.isTruthy = false)
      (helbr : b.elbr = before ++ clause :: after) (hbefore : NonePass before below [])
      (hcond : flowAll clause.cond = .ok []) : RunsDry b (.elbr clause)

/-! ## One step towards the failing test -/

theorem exists_failing_branch {stmts : List Statement} {error : FlowError}
    (h : flowAll stmts = .error error) :
    ∃ inner, .branch inner ∈ stmts ∧ inner.flow = .error error := by
  induction stmts with
  | nil => cases h
  | cons s rest ih =>
      rw [← List.singleton_append, flowAll_append, flowAll_singleton] at h
      cases hs : s.flow with
      | ok own =>
          cases hrest : flowAll rest with
          | ok left =>
              rw [hs, hrest] at h
              cases h
          | error error' =>
              rw [hs, hrest] at h
              cases h
              obtain ⟨inner, hmem, hinner⟩ := ih hrest
              exact ⟨inner, List.mem_cons_of_mem s hmem, hinner⟩
      | error error' =>
          rw [hs] at h
          cases h
          cases s with
          | push v => cases hs
          | branch inner => exact ⟨inner, List.mem_cons_self, hs⟩

theorem Branch.Takes.holds_of_error {b : Branch} {rest : Stack} {taken : List Statement}
    {error : FlowError} (h : b.Takes rest taken) (hfails : flowAll taken = .error error) :
    b.Holds taken := by
  cases h with
  | body => exact .body b
  | clause hfirst hnot helbr hbefore htests hpasses =>
      exact .elbrBody (helbr ▸ List.mem_append_right _ List.mem_cons_self)
  | alternative hfirst hnot hnone =>
      cases hel : b.el with
      | none =>
          rw [hel] at hfails
          cases hfails
      | some body => exact .el hel

theorem Branch.Takes.exists_failing {b : Branch} {rest : Stack} {taken : List Statement}
    {error : FlowError} (h : b.Takes rest taken) (hfails : b.flow = .error error) :
    ∃ stmts, b.Holds stmts ∧ flowAll stmts = .error error := by
  rw [h.flow_eq] at hfails
  cases htaken : flowAll taken with
  | error error' =>
      rw [htaken] at hfails
      cases hfails
      exact ⟨taken, h.holds_of_error htaken, htaken⟩
  | ok own =>
      cases hpost : flowAll b.post with
      | error error' =>
          rw [htaken, hpost] at hfails
          cases hfails
          exact ⟨b.post, .post b, hpost⟩
      | ok above =>
          rw [htaken, hpost] at hfails
          cases hfails

theorem Branch.TestsFirst.runsDry_or_holds_failing {b : Branch} {below : Stack} {v : Value}
    {sender : Sender} (hfirst : b.TestsFirst below v)
    (h : b.flow = .error (.emptyStack sender)) :
    b.RunsDry sender ∨
      ∃ stmts, b.Holds stmts ∧ flowAll stmts = .error (.emptyStack sender) := by
  cases truth : v.isTruthy with
  | true => exact Or.inr ((Branch.Takes.body hfirst truth).exists_failing h)
  | false =>
      rcases nonePass_or_settled b.elbr below with
        ⟨out, hnone⟩ | ⟨before, clause, after, mid, helbr, hbefore, hsettles⟩
      · exact Or.inr ((Branch.Takes.alternative hfirst truth hnone).exists_failing h)
      · have hrun := hfirst.flow_eq
        rw [truth, if_neg Bool.false_ne_true, helbr, hbefore.runClauses_append, h,
          runClauses_cons] at hrun
        cases hsettles with
        | passes htests hpasses =>
            exact Or.inr
              ((Branch.Takes.clause hfirst truth helbr hbefore htests hpasses).exists_failing h)
        | stuck hcond =>
            rw [Run.result_andThen, result_runAll, hcond] at hrun
            cases hrun
            exact Or.inr ⟨clause.cond,
              .elbrCond (helbr ▸ List.mem_append_right _ List.mem_cons_self), hcond⟩
        | dry hstack hcond =>
            subst hstack
            rw [Run.result_andThen, result_runAll, hcond] at hrun
            cases hrun
            exact Or.inl (.clause hfirst truth helbr hbefore hcond)

/-- A branch fails by a test of its own or with one of its sequences. -/
theorem Branch.runsDry_or_holds_failing {b : Branch} {sender : Sender}
    (h : b.flow = .error (.emptyStack sender)) :
    b.RunsDry sender ∨
      ∃ stmts, b.Holds stmts ∧ flowAll stmts = .error (.emptyStack sender) := by
  cases hpre : flowAll b.pre with
  | error error =>
      rw [b.flow_eq, hpre] at h
      cases h
      exact Or.inr ⟨b.pre, .pre b, hpre⟩
  | ok pre =>
      cases hcond : flowAll b.cond with
      | error error =>
          rw [b.flow_eq, hpre, hcond] at h
          cases h
          exact Or.inr ⟨b.cond, .cond b, hcond⟩
      | ok cond =>
          rcases List.eq_nil_or_concat' (pre ++ cond) with hdry | ⟨below, v, htested⟩
          · obtain ⟨rfl, rfl⟩ := List.append_eq_nil_iff.mp hdry
            rw [b.flow_eq, hpre, hcond] at h
            cases h
            exact Or.inl (.first hpre hcond)
          · have hfirst : b.TestsFirst below v := ⟨pre, cond, hpre, hcond, htested⟩
            exact hfirst.runsDry_or_holds_failing h

/-! ## The failing test -/

/-- Down the branches that fail one inside the other, the last is one whose own test does. -/
theorem Branch.exists_runsDry {b : Branch} {sender : Sender}
    (h : b.flow = .error (.emptyStack sender)) :
    ∃ x, b.Contains x ∧ x.flow = .error (.emptyStack sender) ∧ x.RunsDry sender := by
  rcases Branch.runsDry_or_holds_failing h with hdry | ⟨stmts, hholds, hfails⟩
  · exact ⟨b, .self b, h, hdry⟩
  · obtain ⟨inner, hmem, hinner⟩ := exists_failing_branch hfails
    have hlt : sizeOf inner < sizeOf b := by
      have hmemlt := List.sizeOf_lt_of_mem hmem
      have hholdslt := hholds.sizeOf_lt
      rw [Statement.branch.sizeOf_spec] at hmemlt
      omega
    obtain ⟨x, hcontains, hx, hdry⟩ := Branch.exists_runsDry hinner
    exact ⟨x, .within hholds hmem hcontains, hx, hdry⟩
termination_by sizeOf b

/-- The sender of a failure is the construct whose test found no operand: a branch that has
nothing to test, or a clause that comes to its test, after others that failed, with nothing left. -/
theorem Branch.sender_ran_dry (b : Branch) :
    (∀ x, b.flow = .error (.emptyStack (.branch x)) →
      b.Contains x ∧ flowAll x.pre = .ok [] ∧ flowAll x.cond = .ok [] ∧
        x.flow = .error (.emptyStack (.branch x))) ∧
    ∀ clause, b.flow = .error (.emptyStack (.elbr clause)) →
      ∃ x before after, b.Contains x ∧ x.elbr = before ++ [clause] ++ after ∧
        flowAll clause.cond = .ok [] ∧ x.flow = .error (.emptyStack (.elbr clause)) ∧
        { x with elbr := before, el := none, post := [] }.flow = .ok [] ∧
        ∃ below v, x.TestsFirst below v ∧ v.isTruthy = false ∧ NonePass before below [] := by
  constructor
  · intro x h
    obtain ⟨x', hcontains, hx, hdry⟩ := Branch.exists_runsDry h
    cases hdry with
    | first hpre hcond => exact ⟨hcontains, hpre, hcond, hx⟩
  · intro clause h
    obtain ⟨x, hcontains, hx, hdry⟩ := Branch.exists_runsDry h
    cases hdry with
    | @clause below v before after _ hfirst hfails helbr hbefore hcond =>
        refine ⟨x, before, after, hcontains, ?_, hcond, hx, ?_, below, v, hfirst, hfails, hbefore⟩
        · rw [helbr, List.append_assoc, List.singleton_append]
        · have htakes : { x with elbr := before, el := none, post := [] }.Takes [] [] :=
            .alternative hfirst hfails hbefore
          rw [htakes.flow_eq]
          rfl

/-- Two of three equal clauses use up what stands in front of the branch; the third runs dry. -/
def drainedBranch : Branch where
  pre := pushes [.bool false, .nil]
  cond := pushes [.bool false]
  elbr := [{}, {}, {}]

def drainedRoot : Branch where
  cond := [.branch { cond := pushes [.bool true], body := [.push (.int 1), .branch drainedBranch] }]

theorem drainedRoot_sender_ran_dry :
    drainedRoot.flow = .error (.emptyStack (.elbr {})) ∧
      (∃ x before after, drainedRoot.Contains x ∧ x.elbr = before ++ [({} : Elbr)] ++ after ∧
        x.flow = .error (.emptyStack (.elbr {})) ∧
        { x with elbr := before, el := none, post := [] }.flow = .ok []) ∧
      Branch.flow { cond := pushes [.int 0], body := [.branch {}] } =
        .error (.emptyStack (.branch {})) ∧
      Branch.Contains { cond := pushes [.int 0], body := [.branch {}] } {} := by
  have hclause : drainedRoot.flow = .error (.emptyStack (.elbr {})) := rfl
  have hbranch : Branch.flow { cond := pushes [.int 0], body := [.branch {}] } =
      .error (.emptyStack (.branch {})) := rfl
  obtain ⟨x, before, after, hcontains, helbr, -, hflow, hcut, -⟩ :=
    (Branch.sender_ran_dry drainedRoot).2 {} hclause
  exact ⟨hclause, ⟨x, before, after, hcontains, helbr, hflow, hcut⟩, hbranch,
    ((Branch.sender_ran_dry _).1 {} hbranch).1⟩

end BranchCases
