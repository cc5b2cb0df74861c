import BranchCases.Proofs.Nesting

/-
Which sequence a branch runs. The conditions are tested in order on one stack, and the first that
passes decides: what stands behind it is not looked at, nor are the bodies before it. Main result:
the operands that a branch leaves are those beneath the deciding test, then what the sequence it
takes leaves, then those of `post`.
-/
namespace BranchCases

/-- The condition of the branch leaves `v` on top, with the operands `below` beneath it. -/
def Branch.TestsFirst (b : Branch) (below : Stack) (v : Value) : Prop :=
  ∃ pre cond, flowAll b.pre = .ok pre ∧ flowAll b.cond = .ok cond ∧ pre ++ cond = below ++ [v]

/-- On top of `stack`, the condition of the clause leaves `v` on top, with `below` beneath it. -/
def Elbr.Tests (clause : Elbr) (stack below : Stack) (v : Value) : Prop :=
  ∃ own, flowAll clause.cond = .ok own ∧ stack ++ own = below ++ [v]

/-- The clauses are tested one after another, and none passes. -/
inductive NonePass : List Elbr → Stack → Stack → Prop where
  | nil (stack : Stack) : NonePass [] stack stack
  | cons {clause : Elbr} {rest : List Elbr} {stack below out : Stack} {v : Value}
      (htests : clause.Tests stack below v) (hfails : v.isTruthy = false)
      (hrest : NonePass rest below out) : NonePass (clause :: rest) stack out

/-- After its tests the branch is left with some operands and goes on with one of its sequences. -/
inductive Branch.Takes (b : Branch) : Stack → List Statement → Prop where
  | body {below : Stack} {v : Value} (hfirst : b.TestsFirst below v)
      (hpasses : v.isTruthy = true) : Takes b below b.body
  | clause {below mid rest : Stack} {v w : Value} {before after : List Elbr} {clause : Elbr}
      (hfirst : b.TestsFirst below v) (hfails : v.isTruthy = false)
      (helbr : b.elbr = before ++ clause :: after) (hbefore : NonePass before below mid)
      (htests : clause.Tests mid rest w) (hpasses : w.isTruthy = true) : Takes b rest clause.body
  | alternative {below rest : Stack} {v : Value} (hfirst : b.TestsFirst below v)
      (hfails : v.isTruthy = false) (hnone : NonePass b.elbr below rest) :
      Takes b rest (b.el.getD [])

/-! ## Running the clauses -/

theorem runClauses_cons (clause : Elbr) (rest : List Elbr) (stack : Stack)
    (otherwise : Stack → Run) : runClauses (clause :: rest) stack otherwise =
      (runAll clause.cond stack).andThen fun tested =>
        testTop (.elbr clause) tested (runAll clause.body) fun below =>
          runClauses rest below otherwise := by
  cases clause
  rfl

theorem Elbr.Tests.runClauses_eq {clause : Elbr} {stack below : Stack} {v : Value}
    (h : clause.Tests stack below v) (rest : List Elbr) (otherwise : Stack → Run) :
    runClauses (clause :: rest) stack otherwise =
      if v.isTruthy then runAll clause.body below else runClauses rest below otherwise := by
  obtain ⟨own, hcond, htested⟩ := h
  have hrun : runAll clause.cond stack = .done (below ++ [v]) :=
    runAll_eq_done.mpr ⟨own, hcond, htested.symm⟩
  rw [runClauses_cons, hrun, Run.andThen_done, testTop_append]

theorem NonePass.runClauses_append {clauses : List Elbr} {stack out : Stack}
    (h : NonePass clauses stack out) (rest : List Elbr) (otherwise : Stack → Run) :
    runClauses (clauses ++ rest) stack otherwise = runClauses rest out otherwise := by
  induction h with
  | nil stack => rfl
  | cons htests hfails hrest ih =>
      rw [List.cons_append, htests.runClauses_eq, hfails, if_neg Bool.false_ne_true]
      exact ih

theorem runAlternative_eq (el : Option (List Statement)) (stack : Stack) :
    runAlternative el stack = runAll (el.getD []) stack := by
  cases el with
  | none => rfl
  | some body => rfl

/-- The test of the clause settles a run: it passes, or it cannot be made. -/
inductive Elbr.Settles (clause : Elbr) (stack : Stack) : Prop where
  | passes {below : Stack} {v : Value} (htests : clause.Tests stack below v)
      (hpasses : v.isTruthy = true)
  | stuck {error : FlowError} (hcond : flowAll clause.cond = .error error)
  | dry (hstack : stack = []) (hcond : flowAll clause.cond = .ok [])

theorem Elbr.settles_or_fails (clause : Elbr) (stack : Stack) :
    clause.Settles stack ∨ ∃ below v, clause.Tests stack below v ∧ v.isTruthy = false := by
  cases hcond : flowAll clause.cond with
  | error error => exact Or.inl (.stuck hcond)
  | ok own =>
      rcases List.eq_nil_or_concat' (stack ++ own) with hdry | ⟨below, v, htested⟩
      · obtain ⟨hstack, rfl⟩ := List.append_eq_nil_iff.mp hdry
        exact Or.inl (.dry hstack hcond)
      · cases truth : v.isTruthy with
        | true => exact Or.inl (.passes ⟨own, hcond, htested⟩ truth)
        | false => exact Or.inr ⟨below, v, ⟨own, hcond, htested⟩, truth⟩

theorem nonePass_or_settled (clauses : List Elbr) (stack : Stack) :
    (∃ out, NonePass clauses stack out) ∨
      ∃ before clause after mid, clauses = before ++ clause :: after ∧
        NonePass before stack mid ∧ clause.Settles mid := by
  induction clauses generalizing stack with
  | nil => exact Or.inl ⟨stack, .nil stack⟩
  | cons clause rest ih =>
      rcases clause.settles_or_fails stack with hsettles | ⟨below, v, htests, hfails⟩
      · exact Or.inr ⟨[], clause, rest, stack, rfl, .nil stack, hsettles⟩
      · rcases ih below with ⟨out, hnone⟩ | ⟨before, c, after, mid, rfl, hbefore, hsettles⟩
        · exact Or.inl ⟨out, .cons htests hfails hnone⟩
        · exact Or.inr ⟨clause :: before, c, after, mid, rfl, .cons htests hfails hbefore,
            hsettles⟩

/-! ## What a branch takes -/

theorem Branch.TestsFirst.flow_eq {b : Branch} {below : Stack} {v : Value}
    (h : b.TestsFirst below v) : b.flow =
      (if v.isTruthy then runAll b.body below
        else runClauses b.elbr below (runAlternative b.el)).result.bind fun left =>
          (flowAll b.post).map (left ++ ·) := by
  obtain ⟨pre, cond, hpre, hcond, htested⟩ := h
  rw [b.flow_eq, hpre, hcond]
  simp only [Except.bind, htested, Branch.test, testTop_append]

theorem Branch.Takes.flow_eq {b : Branch} {rest : Stack} {taken : List Statement}
    (h : b.Takes rest taken) :
    b.flow = (flowAll taken).bind fun own => (flowAll b.post).map (rest ++ own ++ ·) := by
  have hrun : ∃ below v, b.TestsFirst below v ∧
      (if v.isTruthy then runAll b.body below
        else runClauses b.elbr below (runAlternative b.el)) = runAll taken rest := by
    cases h with
    | body hfirst hpasses => exact ⟨_, _, hfirst, if_pos hpasses⟩
    | clause hfirst hfails helbr hbefore htests hpasses =>
        refine ⟨_, _, hfirst, ?_⟩
        rw [hfails, if_neg Bool.false_ne_true, helbr, hbefore.runClauses_append,
          htests.runClauses_eq, if_pos hpasses]
    | alternative hfirst hfails hnone =>
        refine ⟨_, _, hfirst, ?_⟩
        have hclauses := hnone.runClauses_append [] (runAlternative b.el)
        rw [List.append_nil] at hclauses
        rw [hfails, if_neg Bool.false_ne_true, hclauses, runClauses, runAlternative_eq]
  obtain ⟨below, v, hfirst, hrun⟩ := hrun
  rw [hfirst.flow_eq, hrun, result_runAll]
  cases flowAll taken <;> rfl

theorem Branch.exists_takes_of_flow {b : Branch} {left : Stack} (h : b.flow = .ok left) :
    ∃ rest taken, b.Takes rest taken := by
  obtain ⟨below, v, above, htests⟩ := Branch.tests_of_flow h
  have hfirst : b.TestsFirst below v := htests.head
  cases truth : v.isTruthy with
  | true => exact ⟨below, b.body, .body hfirst truth⟩
  | false =>
      rcases nonePass_or_settled b.elbr below with
        ⟨out, hnone⟩ | ⟨before, clause, after, mid, helbr, hbefore, hsettles⟩
      · exact ⟨out, _, .alternative hfirst truth hnone⟩
      · have hrun := hfirst.flow_eq
        rw [truth, if_neg Bool.false_ne_true, helbr, hbefore.runClauses_append, h,
          runClauses_cons] at hrun
        cases hsettles with
        | passes hclause hpasses =>
            exact ⟨_, _, .clause hfirst truth helbr hbefore hclause hpasses⟩
        | stuck hcond =>
            rw [Run.result_andThen, result_runAll, hcond] at hrun
            cases hrun
        | dry hstack hcond =>
            rw [Run.result_andThen, result_runAll, hcond, hstack] at hrun
            cases hrun

theorem Branch.flow_eq_ok_iff {b : Branch} {left : Stack} :
    b.flow = .ok left ↔ ∃ rest taken own above, b.Takes rest taken ∧ flowAll taken = .ok own ∧
      flowAll b.post = .ok above ∧ left = rest ++ own ++ above := by
  constructor
  · intro h
    obtain ⟨rest, taken, htakes⟩ := Branch.exists_takes_of_flow h
    rw [htakes.flow_eq] at h
    cases htaken : flowAll taken with
    | error error =>
        rw [htaken] at h
        cases h
    | ok own =>
        cases hpost : flowAll b.post with
        | error error =>
            rw [htaken, hpost] at h
            cases h
        | ok above =>
            rw [htaken, hpost] at h
            exact ⟨rest, taken, own, above, htakes, htaken, rfl, (Except.ok.inj h).symm⟩
  · rintro ⟨rest, taken, own, above, htakes, htaken, hpost, rfl⟩
    rw [htakes.flow_eq, htaken, hpost]
    rfl

/-- Branches that take the same sequence leave the same, whatever else they hold. -/
theorem Branch.Takes.flow_congr {b b' : Branch} {rest : Stack} {taken : List Statement}
    (h : b.Takes rest taken) (h' : b'.Takes rest taken) (hpost : b'.post = b.post) :
    b'.flow = b.flow := by
  rw [h.flow_eq, h'.flow_eq, hpost]

/-- Of the clauses that do not pass, only the conditions count. -/
theorem NonePass.of_conds {clauses clauses' : List Elbr} {stack out : Stack}
    (h : NonePass clauses stack out) (hconds : clauses'.map Elbr.cond = clauses.map Elbr.cond) :
    NonePass clauses' stack out := by
  induction h generalizing clauses' with
  | nil stack =>
      rw [List.map_nil, List.map_eq_nil_iff] at hconds
      rw [hconds]
      exact .nil stack
  | cons htests hfails hrest ih =>
      cases clauses' with
      | nil => cases hconds
      | cons clause' rest' =>
          obtain ⟨hcond, hconds⟩ := List.cons.inj hconds
          obtain ⟨own, hown, htested⟩ := htests
          exact .cons ⟨own, hcond ▸ hown, htested⟩ hfails (ih hconds)

/-- The first condition that passes decides. The branch leaves the operands beneath that test,
those of the sequence behind it and those of `post`; nothing that the run does not come to, be it
a body before or a clause after, has a part in whether it succeeds or in what it leaves. -/
theorem Branch.flow_first_match :
    (∀ (b : Branch) (left : Stack), b.flow = .ok left ↔
      ∃ below v above, b.Tests below v above ∧
        ((v.isTruthy = true ∧
            ∃ own, flowAll b.body = .ok own ∧ left = below ++ own ++ above) ∨
          (v.isTruthy = false ∧ ∃ before clause after mid rest w own,
            b.elbr = before ++ clause :: after ∧ NonePass before below mid ∧
            clause.Tests mid rest w ∧ w.isTruthy = true ∧
            flowAll clause.body = .ok own ∧ left = rest ++ own ++ above) ∨
          (v.isTruthy = false ∧ ∃ rest own, NonePass b.elbr below rest ∧
            flowAll (b.el.getD []) = .ok own ∧ left = rest ++ own ++ above))) ∧
    ∀ (b : Branch) (below : Stack) (v : Value), b.TestsFirst below v →
      (v.isTruthy = true → ∀ elbr el, { b with elbr, el }.flow = b.flow) ∧
      (v.isTruthy = false → ∀ before clause after mid rest w,
        b.elbr = before ++ clause :: after → NonePass before below mid →
        clause.Tests mid rest w → w.isTruthy = true → ∀ body before' after' el,
          before'.map Elbr.cond = before.map Elbr.cond →
          { b with body, elbr := before' ++ clause :: after', el }.flow = b.flow) ∧
      (v.isTruthy = false → ∀ rest, NonePass b.elbr below rest → ∀ body elbr,
        elbr.map Elbr.cond = b.elbr.map Elbr.cond → { b with body, elbr }.flow = b.flow) := by
  constructor
  · intro b left
    rw [Branch.flow_eq_ok_iff]
    constructor
    · rintro ⟨rest, taken, own, above, htakes, htaken, hpost, rfl⟩
      cases htakes with
      | body hfirst hpasses =>
          exact ⟨_, _, above, ⟨hfirst, hpost⟩, Or.inl ⟨hpasses, own, htaken, rfl⟩⟩
      | clause hfirst hfails helbr hbefore htests hpasses =>
          exact ⟨_, _, above, ⟨hfirst, hpost⟩, Or.inr (Or.inl
            ⟨hfails, _, _, _, _, _, _, own, helbr, hbefore, htests, hpasses, htaken, rfl⟩)⟩
      | alternative hfirst hfails hnone =>
          exact ⟨_, _, above, ⟨hfirst, hpost⟩,
            Or.inr (Or.inr ⟨hfails, _, own, hnone, htaken, rfl⟩)⟩
    · rintro ⟨below, v, above, ⟨hfirst, hpost⟩, ⟨hpasses, own, htaken, rfl⟩ |
        ⟨hfails, before, clause, after, mid, rest, w, own, helbr, hbefore, htests, hpasses,
          htaken, rfl⟩ | ⟨hfails, rest, own, hnone, htaken, rfl⟩⟩
      · exact ⟨_, _, own, above, .body hfirst hpasses, htaken, hpost, rfl⟩
      · exact ⟨_, _, own, above, .clause hfirst hfails helbr hbefore htests hpasses, htaken,
          hpost, rfl⟩
      · exact ⟨_, _, own, above, .alternative hfirst hfails hnone, htaken, hpost, rfl⟩
  · intro b below v hfirst
    refine ⟨?_, ?_, ?_⟩
    · intro hpasses elbr el
      have htakes : { b with elbr, el }.Takes below b.body := .body hfirst hpasses
      exact (Branch.Takes.body hfirst hpasses).flow_congr htakes rfl
    · intro hfails before clause after mid rest w helbr hbefore htests hpasses body before'
        after' el hconds
      have htakes : { b with body, elbr := before' ++ clause :: after', el }.Takes rest
          clause.body := .clause hfirst hfails rfl (hbefore.of_conds hconds) htests hpasses
      exact (Branch.Takes.clause hfirst hfails helbr hbefore htests hpasses).flow_congr htakes rfl
    · intro hfails rest hnone body elbr hconds
      have htakes : { b with body, elbr }.Takes rest (b.el.getD []) :=
        .alternative hfirst hfails (hnone.of_conds hconds)
      exact (Branch.Takes.alternative hfirst hfails hnone).flow_congr htakes rfl

/-- The second of three clauses passes, on an operand from in front of the branch. The sequences
that are not taken could not run. -/
def secondClauseBranch : Branch where
  pre := pushes [.int 1, .bool false]
  cond := pushes [.nil]
  body := [.branch {}]
  elbr := [{ cond := [], body := [.branch {}] }, { cond := [], body := pushes [.string "taken"] },
    { cond := [.branch {}] }]
  el := some [.branch {}]
  post := pushes [.nil]

theorem secondClauseBranch_flow_first_match :
    secondClauseBranch.flow = .ok [.string "taken", .nil] ∧
      secondClauseBranch.TestsFirst [.int 1, .bool false] .nil ∧
      NonePass [{ cond := [], body := [.branch {}] }] [.int 1, .bool false] [.int 1] ∧
      Elbr.Tests { cond := [], body := pushes [.string "taken"] } [.int 1] [] (.int 1) ∧
      ({ secondClauseBranch with
        body := [], elbr := [{}, { cond := [], body := pushes [.string "taken"] }], el := none }
          : Branch).flow = secondClauseBranch.flow := by
  have hfirst : secondClauseBranch.TestsFirst [.int 1, .bool false] .nil :=
    ⟨[.int 1, .bool false], [.nil], rfl, rfl, rfl⟩
  have hfails : Elbr.Tests { cond := [], body := [.branch {}] } [.int 1, .bool false] [.int 1]
      (.bool false) := ⟨[], rfl, rfl⟩
  have hbefore : NonePass [{ cond := [], body := [.branch {}] }] [.int 1, .bool false] [.int 1] :=
    .cons hfails rfl (.nil [.int 1])
  have htests : Elbr.Tests { cond := [], body := pushes [.string "taken"] } [.int 1] [] (.int 1) :=
    ⟨[], rfl, rfl⟩
  have hflow : secondClauseBranch.flow = .ok [.string "taken", .nil] :=
    (Branch.flow_first_match.1 secondClauseBranch _).mpr ⟨[.int 1, .bool false], .nil, [.nil],
      ⟨hfirst, rfl⟩, Or.inr (Or.inl ⟨rfl, _, _, _, _, [], .int 1, [.string "taken"], rfl, hbefore,
        htests, rfl, rfl, rfl⟩)⟩
  exact ⟨hflow, hfirst, hbefore, htests, (Branch.flow_first_match.2 secondClauseBranch _ _
    hfirst).2.1 rfl _ _ _ _ _ _ rfl hbefore htests rfl [] [{}] [] none rfl⟩

end BranchCases
