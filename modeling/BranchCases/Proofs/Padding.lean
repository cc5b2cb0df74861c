import BranchCases.Proofs.FirstMatch

/-
More statements around a branch that runs. Operands that lie beneath those of its own `pre` stay out
of every test, so the branch goes the same way above them. Main result: statements in front of `pre`
or behind `post` add what they leave on their own, at that end, and nothing else changes.
-/
namespace BranchCases

/-! ## The tests above more operands -/

theorem Branch.TestsFirst.over {b : Branch} {below : Stack} {v : Value}
    (h : b.TestsFirst below v) {w : List Statement} {base : Stack} (hw : flowAll w = .ok base) :
    { b with pre := w ++ b.pre }.TestsFirst (base ++ below) v := by
  obtain ⟨pre, cond, hpre, hcond, htested⟩ := h
  have hpadded : flowAll (w ++ b.pre) = .ok (base ++ pre) :=
    flowAll_append_eq_ok.mpr ⟨base, pre, hw, hpre, rfl⟩
  refine ⟨base ++ pre, cond, hpadded, hcond, ?_⟩
  rw [List.append_assoc, List.append_assoc, htested]

theorem Elbr.Tests.over {clause : Elbr} {stack below : Stack} {v : Value}
    (h : clause.Tests stack below v) (base : Stack) :
    clause.Tests (base ++ stack) (base ++ below) v := by
  obtain ⟨own, hown, htested⟩ := h
  refine ⟨own, hown, ?_⟩
  rw [List.append_assoc, List.append_assoc, htested]

theorem NonePass.over {clauses : List Elbr} {stack out : Stack}
    (h : NonePass clauses stack out) (base : Stack) :
    NonePass clauses (base ++ stack) (base ++ out) := by
  induction h with
  | nil stack => exact .nil (base ++ stack)
  | cons htests hfails hrest ih => exact .cons (htests.over base) hfails ih

/-- A branch whose first test is the same above more operands takes the same sequence above them. -/
theorem Branch.Takes.over {b b' : Branch} {rest base : Stack} {taken : List Statement}
    (h : b.Takes rest taken)
    (hfirst : ∀ below v, b.TestsFirst below v → b'.TestsFirst (base ++ below) v)
    (hbody : b'.body = b.body) (helbr : b'.elbr = b.elbr) (hel : b'.el = b.el) :
    b'.Takes (base ++ rest) taken := by
  cases h with
  | body htests hpasses =>
      rw [← hbody]
      exact .body (hfirst _ _ htests) hpasses
  | clause htests hfails hclauses hbefore hclause hpasses =>
      exact .clause (hfirst _ _ htests) hfails (helbr.trans hclauses) (hbefore.over base)
        (hclause.over base) hpasses
  | alternative htests hfails hnone =>
      rw [← hel]
      rw [← helbr] at hnone
      exact .alternative (hfirst _ _ htests) hfails (hnone.over base)

/-! ## Both ends of a branch -/

theorem Branch.Takes.pad_pre {b : Branch} {rest : Stack} {taken w : List Statement} {t : Stack}
    (h : b.Takes rest taken) (hw : flowAll w = .ok t) :
    { b with pre := w ++ b.pre }.Takes (t ++ rest) taken :=
  h.over (fun _ _ hfirst => hfirst.over hw) rfl rfl rfl

theorem Branch.Takes.pad_post {b : Branch} {rest : Stack} {taken : List Statement}
    (h : b.Takes rest taken) (w : List Statement) :
    { b with post := b.post ++ w }.Takes rest taken := by
  -- The tests do not look at `post`, so there is nothing more beneath them.
  change { b with post := b.post ++ w }.Takes ([] ++ rest) taken
  exact h.over (fun _ _ hfirst => hfirst) rfl rfl rfl

theorem Branch.flow_pad_pre {b : Branch} {s t : Stack} {w : List Statement}
    (hb : b.flow = .ok s) (hw : flowAll w = .ok t) :
    { b with pre := w ++ b.pre }.flow = .ok (t ++ s) := by
  obtain ⟨rest, taken, own, above, htakes, htaken, hpost, rfl⟩ := Branch.flow_eq_ok_iff.mp hb
  refine Branch.flow_eq_ok_iff.mpr
    ⟨t ++ rest, taken, own, above, htakes.pad_pre hw, htaken, hpost, ?_⟩
  simp only [List.append_assoc]

theorem Branch.flow_pad_post {b : Branch} {s t : Stack} {w : List Statement}
    (hb : b.flow = .ok s) (hw : flowAll w = .ok t) :
    { b with post := b.post ++ w }.flow = .ok (s ++ t) := by
  obtain ⟨rest, taken, own, above, htakes, htaken, hpost, rfl⟩ := Branch.flow_eq_ok_iff.mp hb
  have hends : flowAll (b.post ++ w) = .ok (above ++ t) :=
    flowAll_append_eq_ok.mpr ⟨above, t, hpost, hw, rfl⟩
  refine Branch.flow_eq_ok_iff.mpr
    ⟨rest, taken, own, above ++ t, htakes.pad_post w, htaken, hends, ?_⟩
  rw [List.append_assoc]

/-- Statements that can run may be put in front of the `pre` of a branch that runs, or behind its
`post`: what they leave comes to lie under or on what the branch leaves. The tests leave the
operands beneath alone and decide as before, and the branch stays valid. -/
theorem Branch.flow_padded (b : Branch) (s t : Stack) (w : List Statement)
    (hb : b.flow = .ok s) (hw : flowAll w = .ok t) :
    { b with pre := w ++ b.pre }.flow = .ok (t ++ s) ∧
    { b with post := b.post ++ w }.flow = .ok (s ++ t) ∧
    (∀ rest taken, b.Takes rest taken →
      { b with pre := w ++ b.pre }.Takes (t ++ rest) taken ∧
        { b with post := b.post ++ w }.Takes rest taken) ∧
    { b with pre := w ++ b.pre }.isValid ∧ { b with post := b.post ++ w }.isValid := by
  have hpre := Branch.flow_pad_pre hb hw
  have hpost := Branch.flow_pad_post hb hw
  refine ⟨hpre, hpost, ?_, Branch.isValid_iff.mpr ⟨_, hpre⟩, Branch.isValid_iff.mpr ⟨_, hpost⟩⟩
  intro rest taken htakes
  exact ⟨htakes.pad_pre hw, htakes.pad_post w⟩

/-- A branch that uses up all operands of its own for its tests. -/
def spentBranch : Branch where
  pre := pushes [.bool false]
  cond := pushes [.nil]
  elbr := [{ body := [.branch {}] }, { cond := pushes [.int 0], body := pushes [.int 1] }]

theorem spentBranch_flow_padded :
    spentBranch.flow = .ok [.int 1] ∧
      flowAll (.branch spentBranch :: pushes [.bool true]) = .ok [.int 1, .bool true] ∧
      { spentBranch with
        pre := .branch spentBranch :: pushes [.bool true, .bool false] }.flow =
          .ok [.int 1, .bool true, .int 1] ∧
      { spentBranch with post := .branch spentBranch :: pushes [.bool true] }.flow =
        .ok [.int 1, .int 1, .bool true] := by
  have hb : spentBranch.flow = .ok [.int 1] := rfl
  have hw : flowAll (.branch spentBranch :: pushes [.bool true]) = .ok [.int 1, .bool true] := rfl
  obtain ⟨hpre, hpost, -⟩ := spentBranch.flow_padded _ _ _ hb hw
  exact ⟨hb, hw, hpre, hpost⟩

end BranchCases
