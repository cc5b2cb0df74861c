import BranchCases.Graft
import BranchCases.Proofs.Runs

/-
Branches nested in branches. Main results: a valid branch stays valid with any valid body in
it, at any depth of nesting, and the operands around those of the body do not depend on it.
-/
namespace BranchCases

/-! ## The operands around a body -/

/-- The branch tests `v`, with the operands `below` beneath it, and its `post` adds `above`. -/
structure Branch.Tests (b : Branch) (below : Stack) (v : Value) (above : Stack) : Prop where
  head : ∃ pre cond, flowAll b.pre = .ok pre ∧ flowAll b.cond = .ok cond ∧
    pre ++ cond = below ++ [v]
  post : flowAll b.post = .ok above

theorem Branch.Tests.withBody {b : Branch} {below above : Stack} {v : Value}
    (h : b.Tests below v above) (body : List Statement) : (b.withBody body).Tests below v above :=
  ⟨h.head, h.post⟩

/-- What a branch leaves once the operand is known that it tests. -/
theorem Branch.Tests.flow_eq {b : Branch} {below above : Stack} {v : Value}
    (h : b.Tests below v above) :
    b.flow = if v.isTruthy then (flowAll b.body).map fun own => below ++ own ++ above
      else (runClauses b.elbr below (runAlternative b.el)).result.map (· ++ above) := by
  obtain ⟨pre, cond, hpre, hcond, htested⟩ := h.head
  rw [b.flow_eq, hpre, hcond, h.post]
  simp only [Except.bind, htested, Branch.test, testTop_append]
  by_cases truth : v.isTruthy
  · rw [if_pos truth, if_pos truth, result_runAll]
    cases flowAll b.body <;> rfl
  · rw [if_neg truth, if_neg truth]
    cases (runClauses b.elbr below (runAlternative b.el)).result <;> rfl

/-- A valid branch finds an operand to test. -/
theorem Branch.tests_of_flow {b : Branch} {own : Stack} (h : b.flow = .ok own) :
    ∃ below v above, b.Tests below v above := by
  have hrun : b.runOn [] = .done own := Run.result_eq_ok.mp h
  rw [b.runOn_eq] at hrun
  obtain ⟨left, hbranch, -⟩ := Run.appendTo_eq_done.mp hrun
  obtain ⟨mid, htested, hpost⟩ := Run.andThen_eq_done.mp hbranch
  obtain ⟨tested, hhead, htest⟩ := Run.andThen_eq_done.mp htested
  obtain ⟨pre, hpre, hcond⟩ := Run.andThen_eq_done.mp hhead
  obtain ⟨below, v, rfl, -⟩ := testTop_eq_done htest
  obtain ⟨cond, hcond, hsplit⟩ := runAll_eq_done.mp hcond
  obtain ⟨above, hpost, -⟩ := runAll_eq_done.mp hpost
  exact ⟨below, v, above, ⟨pre, cond, Run.result_eq_ok.mpr hpre, hcond, hsplit.symm⟩, hpost⟩

/-- What a branch leaves when the operands `inner` are what its body leaves: the body counts
only where the condition passes. -/
def Branch.around (outer : Branch) (inner : Stack) : Except FlowError Stack := do
  let tested := (← flowAll outer.pre) ++ (← flowAll outer.cond)
  if tested.getLast?.any Value.isTruthy then
    return tested.dropLast ++ inner ++ (← flowAll outer.post)
  else
    outer.flow

theorem Branch.Tests.around_eq {outer : Branch} {below above : Stack} {v : Value}
    (h : outer.Tests below v above) (inner : Stack) :
    outer.around inner = if v.isTruthy then .ok (below ++ inner ++ above) else outer.flow := by
  obtain ⟨pre, cond, hpre, hcond, htested⟩ := h.head
  simp [Branch.around, hpre, hcond, htested, h.post, bind, Except.bind, pure, Except.pure]

theorem Branch.Tests.flow_withBody {outer : Branch} {below above : Stack} {v : Value}
    (h : outer.Tests below v above) (x : Statement) :
    (outer.withBody [x]).flow =
      if v.isTruthy then x.flow.map fun own => below ++ own ++ above else outer.flow := by
  rw [(h.withBody [x]).flow_eq]
  by_cases truth : v.isTruthy
  · rw [if_pos truth, if_pos truth, Branch.withBody, flowAll_singleton]
  · rw [if_neg truth, if_neg truth, h.flow_eq, if_neg truth]
    rfl

/-! ## Nesting at any depth -/

theorem Branch.flow_graft {outer inner : Branch} {own s : Stack} (houter : outer.flow = .ok own)
    (hinner : inner.flow = .ok s) :
    ∃ left, outer.around s = .ok left ∧ (outer.graft inner).flow = .ok left := by
  obtain ⟨below, v, above, htests⟩ := Branch.tests_of_flow houter
  have hx : (Statement.branch inner).flow = .ok s := hinner
  rw [Branch.graft, htests.flow_withBody, htests.around_eq, hx]
  by_cases truth : v.isTruthy
  · rw [if_pos truth]
    exact ⟨below ++ s ++ above, rfl, if_pos truth⟩
  · rw [if_neg truth]
    exact ⟨own, houter, (if_neg truth).trans houter⟩

theorem Branch.isValid_iff {b : Branch} : b.isValid ↔ ∃ own, b.flow = .ok own := by
  unfold Branch.isValid
  cases b.flow with
  | error e => simp [Except.isOk, Except.toBool]
  | ok own => simp [Except.isOk, Except.toBool]

theorem Branch.isValid_graft {outer inner : Branch} (houter : outer.isValid)
    (hinner : inner.isValid) : (outer.graft inner).isValid := by
  obtain ⟨own, houter⟩ := Branch.isValid_iff.mp houter
  obtain ⟨s, hinner⟩ := Branch.isValid_iff.mp hinner
  obtain ⟨left, -, hgraft⟩ := Branch.flow_graft houter hinner
  exact Branch.isValid_iff.mpr ⟨left, hgraft⟩

theorem isValid_of_mem_grafts {outers inners : List Branch}
    (houters : ∀ outer ∈ outers, outer.isValid) (hinners : ∀ inner ∈ inners, inner.isValid) :
    ∀ b ∈ grafts outers inners, b.isValid := by
  intro b hb
  obtain ⟨outer, houter, hb⟩ := List.mem_flatMap.mp hb
  obtain ⟨inner, hinner, rfl⟩ := List.mem_map.mp hb
  exact Branch.isValid_graft (houters outer houter) (hinners inner hinner)

/-- Every nest of valid branches is valid. -/
theorem Branch.flow_graftThrough {outers : List Branch} {inner : Branch} {s : Stack}
    (houters : ∀ outer ∈ outers, outer.isValid) (hinner : inner.flow = .ok s) :
    ∃ left, outers.foldlM (fun s outer => outer.around s) s = .ok left ∧
      (inner.graftThrough outers).flow = .ok left := by
  induction outers generalizing inner s with
  | nil => exact ⟨s, rfl, hinner⟩
  | cons outer outers ih =>
      rw [List.forall_mem_cons] at houters
      obtain ⟨own, howns⟩ := Branch.isValid_iff.mp houters.1
      obtain ⟨left, haround, hgraft⟩ := Branch.flow_graft howns hinner
      obtain ⟨out, hfold, hflow⟩ := ih houters.2 hgraft
      refine ⟨out, ?_, hflow⟩
      rw [List.foldlM_cons, haround]
      exact hfold

end BranchCases
