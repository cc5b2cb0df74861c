import BranchCases.Proofs.FirstMatch
import BranchCases.Proofs.Flattening

/-
Which literals a run leaves. A test takes the top operand away and a sequence that is not taken adds
none, so the operands are always some of the literals that the run has come past, in their order.
Main result: what a branch leaves is a sublist of its literals, and shorter than they are.
-/
namespace BranchCases

/-- What the sequence leaves stands among its literals, in the order of its source. -/
def Traced (stmts : List Statement) : Prop :=
  ∀ own, flowAll stmts = .ok own → own.Sublist (literalsAll stmts)

structure Elbr.IsTraced (clause : Elbr) : Prop where
  cond : Traced clause.cond
  body : Traced clause.body

structure Branch.IsTraced (b : Branch) : Prop where
  pre : Traced b.pre
  cond : Traced b.cond
  body : Traced b.body
  elbr : ∀ clause ∈ b.elbr, clause.IsTraced
  el : Traced (b.el.getD [])
  post : Traced b.post

/-! ## Literals by slots -/

theorem literalsClauses_cons (clause : Elbr) (rest : List Elbr) :
    literalsClauses (clause :: rest) =
      literalsAll clause.cond ++ literalsAll clause.body ++ literalsClauses rest := by
  cases clause
  rfl

theorem literalsClauses_append (before rest : List Elbr) :
    literalsClauses (before ++ rest) = literalsClauses before ++ literalsClauses rest := by
  induction before with
  | nil => rfl
  | cons clause before ih =>
      rw [List.cons_append, literalsClauses_cons, literalsClauses_cons, ih]
      simp only [List.append_assoc]

theorem literalsAlternative_eq (el : Option (List Statement)) :
    literalsAlternative el = literalsAll (el.getD []) := by
  cases el with
  | none => rfl
  | some body => rfl

/-- The literals behind the test of a branch, up to its `post`. -/
def Branch.literalsBehind (b : Branch) : List Value :=
  literalsAll b.body ++ literalsClauses b.elbr ++ literalsAll (b.el.getD [])

theorem Branch.literals_eq (b : Branch) :
    b.literals =
      literalsAll b.pre ++ literalsAll b.cond ++ b.literalsBehind ++ literalsAll b.post := by
  cases b
  simp [Branch.literals, Branch.literalsBehind, literalsAlternative_eq]

/-! ## Along the tests -/

theorem Branch.TestsFirst.sublist {b : Branch} {below : Stack} {v : Value}
    (h : b.TestsFirst below v) (hb : b.IsTraced) :
    (below ++ [v]).Sublist (literalsAll b.pre ++ literalsAll b.cond) := by
  obtain ⟨pre, cond, hpre, hcond, htested⟩ := h
  rw [← htested]
  exact (hb.pre pre hpre).append (hb.cond cond hcond)

theorem Elbr.Tests.sublist {clause : Elbr} {stack below : Stack} {v : Value}
    (h : clause.Tests stack below v) (hcond : Traced clause.cond) :
    below.Sublist (stack ++ literalsAll clause.cond) := by
  obtain ⟨own, hown, htested⟩ := h
  have hstack : (stack ++ own).Sublist (stack ++ literalsAll clause.cond) :=
    (hcond own hown).append_left stack
  rw [htested] at hstack
  exact (List.sublist_append_left below [v]).trans hstack

theorem NonePass.sublist {clauses : List Elbr} {stack out : Stack}
    (h : NonePass clauses stack out) (hclauses : ∀ clause ∈ clauses, clause.IsTraced) :
    out.Sublist (stack ++ literalsClauses clauses) := by
  induction h with
  | nil stack => exact List.sublist_append_left stack _
  | @cons clause rest stack below out v htests hfails hrest ih =>
      obtain ⟨hclause, hothers⟩ := List.forall_mem_cons.mp hclauses
      have hbelow := htests.sublist hclause.cond
      have hconds : (literalsAll clause.cond ++ literalsClauses rest).Sublist
          (literalsClauses (clause :: rest)) := by
        rw [literalsClauses_cons]
        exact (List.sublist_append_left _ (literalsAll clause.body)).append_right _
      have hout := (ih hothers).trans (hbelow.append_right (literalsClauses rest))
      rw [List.append_assoc] at hout
      exact hout.trans (hconds.append_left stack)

/-- The operands beneath the last test, then those of the sequence that is taken. -/
theorem Branch.Takes.sublist {b : Branch} {rest own : Stack} {taken : List Statement}
    (h : b.Takes rest taken) (hb : b.IsTraced) (htaken : flowAll taken = .ok own) :
    ∃ below v, b.TestsFirst below v ∧ (rest ++ own).Sublist (below ++ b.literalsBehind) := by
  cases h with
  | @body below v hfirst hpasses =>
      refine ⟨_, v, hfirst, ?_⟩
      have hown := (hb.body own htaken).append_left rest
      refine hown.trans (List.Sublist.append_left ?_ rest)
      rw [Branch.literalsBehind, List.append_assoc]
      exact List.sublist_append_left _ _
  | @clause below mid rest v w before after clause hfirst hfails helbr hbefore htests hpasses =>
      refine ⟨below, v, hfirst, ?_⟩
      have hclauses : ∀ c ∈ before ++ clause :: after, c.IsTraced := helbr ▸ hb.elbr
      obtain ⟨hearlier, hlater⟩ := List.forall_mem_append.mp hclauses
      obtain ⟨hclause, -⟩ := List.forall_mem_cons.mp hlater
      have hmid := hbefore.sublist hearlier
      have hrest := (htests.sublist hclause.cond).trans (hmid.append_right _)
      have hall := hrest.append (hclause.body own htaken)
      rw [List.append_assoc, List.append_assoc] at hall
      refine hall.trans (List.Sublist.append_left ?_ below)
      -- The literals of the clauses up to the one that passes, without those of the later ones.
      have hclauses : (literalsClauses before ++
          (literalsAll clause.cond ++ literalsAll clause.body)).Sublist
            (literalsClauses b.elbr) := by
        rw [helbr, literalsClauses_append, literalsClauses_cons]
        exact (List.sublist_append_left _ (literalsClauses after)).append_left _
      exact hclauses.trans ((List.sublist_append_right _ _).trans (List.sublist_append_left _ _))
  | @alternative below rest v hfirst hfails hnone =>
      refine ⟨below, v, hfirst, ?_⟩
      have hrest := hnone.sublist hb.elbr
      have hall := hrest.append (hb.el own htaken)
      rw [List.append_assoc] at hall
      refine hall.trans (List.Sublist.append_left ?_ below)
      rw [Branch.literalsBehind, List.append_assoc]
      exact List.sublist_append_right _ _

/-- A branch whose sequences are traced leaves fewer operands than it has literals. -/
theorem Branch.IsTraced.flow {b : Branch} (hb : b.IsTraced) {left : Stack}
    (h : b.flow = .ok left) :
    left.Sublist b.literals ∧ left.length < b.literals.length := by
  obtain ⟨rest, taken, own, above, htakes, htaken, hpost, rfl⟩ := Branch.flow_eq_ok_iff.mp h
  obtain ⟨below, v, hfirst, hbehind⟩ := htakes.sublist hb htaken
  have htested := hfirst.sublist hb
  have hleft := hbehind.append (hb.post above hpost)
  rw [b.literals_eq]
  constructor
  · have hbelow := (List.sublist_append_left below [v]).trans htested
    exact hleft.trans ((hbelow.append_right _).append_right _)
  · -- The tested operand is one of the literals, but not one of those that are left.
    have hlength := hleft.length_le
    have hmore := htested.length_le
    simp only [List.length_append, List.length_singleton] at hlength hmore ⊢
    omega

/-! ## Trees -/

mutual

theorem Statement.flow_sublist : (s : Statement) → ∀ own, s.flow = .ok own →
    own.Sublist s.literals
  | .push v, own, h => by
      cases h
      exact List.Sublist.refl [v]
  | .branch b, own, h => (b.isTraced.flow h).1

theorem Branch.isTraced : (b : Branch) → b.IsTraced
  | ⟨pre, cond, body, elbr, el, post⟩ =>
      ⟨traced_all pre, traced_all cond, traced_all body, traced_clauses elbr,
        traced_alternative el, traced_all post⟩

theorem traced_all : (stmts : List Statement) → Traced stmts
  | [], own, h => by
      cases h
      exact List.nil_sublist []
  | s :: rest, own, h => by
      obtain ⟨left, right, hs, hrest, rfl⟩ := flowAll_cons_eq_ok.mp h
      exact (s.flow_sublist left hs).append (traced_all rest right hrest)

theorem traced_clauses : (elbr : List Elbr) → ∀ clause ∈ elbr, clause.IsTraced
  | [] => List.forall_mem_nil _
  | ⟨cond, body⟩ :: rest =>
      List.forall_mem_cons.mpr ⟨⟨traced_all cond, traced_all body⟩, traced_clauses rest⟩

theorem traced_alternative : (el : Option (List Statement)) → Traced (el.getD [])
  | none => traced_all []
  | some body => traced_all body

end

/-- Nothing that a branch leaves is new, is there twice or is out of its place: what it leaves is a
sublist of the literals of its source, and at least one of them is not left. -/
theorem Branch.flow_sublist_literals (b : Branch) (left : Stack) (h : b.flow = .ok left) :
    left.Sublist b.literals ∧ left.length < b.literals.length :=
  b.isTraced.flow h

/-- The first clause passes on an operand that the condition has left. Of the equal literals some
are left, some are taken and some are never pushed. -/
def siftedBranch : Branch where
  pre := pushes [.int 1, .bool false]
  cond := [.branch { cond := pushes [.int 1], body := pushes [.int 1, .nil] }]
  elbr := [{ body := pushes [.int 2] }, { cond := pushes [.int 1], body := pushes [.int 1] }]
  post := pushes [.int 1]

theorem siftedBranch_flow_sublist :
    siftedBranch.flow = .ok [.int 1, .bool false, .int 2, .int 1] ∧
      siftedBranch.literals = [.int 1, .bool false, .int 1, .int 1, .nil, .int 2, .int 1, .int 1,
        .int 1] ∧
      [.int 1, .bool false, .int 2, .int 1].Sublist siftedBranch.literals ∧
      4 < siftedBranch.literals.length := by
  have hflow : siftedBranch.flow = .ok [.int 1, .bool false, .int 2, .int 1] := rfl
  obtain ⟨hsublist, hlength⟩ := siftedBranch.flow_sublist_literals _ hflow
  exact ⟨hflow, rfl, hsublist, hlength⟩

end BranchCases
