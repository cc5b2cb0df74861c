import BranchCases.Proofs.FirstMatch
import Mathlib.Algebra.GroupWithZero.Nat

/-
The supply of operands for the tests of a branch. Test zero is that of the branch, test `k` that of
its clause number `k`, counted from one. Where the sequences in front of the tests only push, test
`k` finds what they have pushed so far, less one operand for each test before it. Main result: the
branch fails exactly at a test that comes when as many operands are taken as were pushed.
-/
namespace BranchCases

/-- The branch only pushes in front of its tests. -/
structure Branch.PushesTests (b : Branch) : Prop where
  pre : OnlyPushes b.pre
  cond : OnlyPushes b.cond
  elbr : ∀ clause ∈ b.elbr, OnlyPushes clause.cond

/-- The sequences of the branch behind its tests come to their ends. -/
structure Branch.RunsBehind (b : Branch) : Prop where
  body : ∃ own, flowAll b.body = .ok own
  elbr : ∀ clause ∈ b.elbr, ∃ own, flowAll clause.body = .ok own
  el : ∀ body, b.el = some body → ∃ own, flowAll body = .ok own
  post : ∃ own, flowAll b.post = .ok own

/-- The number of statements in front of test `k`. -/
def Branch.supply (b : Branch) (k : Nat) : Nat :=
  b.pre.length + b.cond.length + ((b.elbr.take k).map fun clause => clause.cond.length).sum

/-- The branch comes to test `k`, which finds the operands `tested`. -/
inductive Branch.ComesTo (b : Branch) : Nat → Stack → Prop where
  | first {pre cond : Stack} (hpre : flowAll b.pre = .ok pre) (hcond : flowAll b.cond = .ok cond) :
      ComesTo b 0 (pre ++ cond)
  | next {k : Nat} {below own : Stack} {v : Value} {clause : Elbr}
      (hbefore : ComesTo b k (below ++ [v])) (hfails : v.isTruthy = false)
      (hclause : b.elbr[k]? = some clause) (hcond : flowAll clause.cond = .ok own) :
      ComesTo b (k + 1) (below ++ own)

/-- Test `k` takes an operand and fails. -/
def Branch.FailsTest (b : Branch) (k : Nat) : Prop :=
  ∃ below v, b.ComesTo k (below ++ [v]) ∧ v.isTruthy = false

/-- The branch comes to test `k` and to none after it. -/
def Branch.EndsTests (b : Branch) (k : Nat) (tested : Stack) : Prop :=
  b.ComesTo k tested ∧ ∀ tested', ¬ b.ComesTo (k + 1) tested'

/-- The construct whose test is test `k`. -/
def Branch.tester (b : Branch) : Nat → Sender
  | 0 => .branch b
  | k + 1 => .elbr (b.elbr.getD k {})

/-- The sequence that runs when test `k` passes. -/
def Branch.bodyOf (b : Branch) : Nat → List Statement
  | 0 => b.body
  | k + 1 => (b.elbr.getD k {}).body

/-- The sequence that runs when test `k` is the last and takes `v`. -/
def Branch.sequenceAfter (b : Branch) (k : Nat) (v : Value) : List Statement :=
  if v.isTruthy then b.bodyOf k else b.el.getD []

/-- The run of the branch from test `k` on, up to its `post`. -/
def Branch.runFrom (b : Branch) (k : Nat) (tested : Stack) : Run :=
  testTop (b.tester k) tested (runAll (b.bodyOf k)) fun below =>
    runClauses (b.elbr.drop k) below (runAlternative b.el)

/-! ## What each test finds -/

theorem Branch.supply_succ {b : Branch} {k : Nat} {clause : Elbr}
    (h : b.elbr[k]? = some clause) : b.supply (k + 1) = b.supply k + clause.cond.length := by
  simp [Branch.supply, List.take_add_one, h, Nat.add_assoc]

theorem Branch.ComesTo.le {b : Branch} {k : Nat} {tested : Stack} (h : b.ComesTo k tested) :
    k ≤ b.elbr.length := by
  cases h with
  | first => exact Nat.zero_le _
  | next hbefore hfails hclause =>
      obtain ⟨hk, -⟩ := List.getElem?_eq_some_iff.mp hclause
      exact hk

/-- Each test takes one operand of those that are pushed in front of it and of the tests before. -/
theorem Branch.ComesTo.length {b : Branch} (hb : b.PushesTests) {k : Nat} {tested : Stack}
    (h : b.ComesTo k tested) : tested.length + k = b.supply k := by
  induction h with
  | first hpre hcond =>
      have hpre' := hb.pre.length_flow hpre
      have hcond' := hb.cond.length_flow hcond
      simp [Branch.supply, hpre', hcond']
  | next hbefore hfails hclause hcond ih =>
      have hown := (hb.elbr _ (List.mem_of_getElem? hclause)).length_flow hcond
      rw [Branch.supply_succ hclause]
      simp only [List.length_append, List.length_singleton] at ih ⊢
      omega

theorem Branch.ComesTo.failsTest {b : Branch} {k : Nat} {tested : Stack}
    (h : b.ComesTo k tested) : ∀ j < k, b.FailsTest j := by
  induction h with
  | first => exact fun j hj => absurd hj (Nat.not_lt_zero j)
  | next hbefore hfails hclause hcond ih =>
      intro j hj
      rcases Nat.lt_succ_iff_lt_or_eq.mp hj with hlt | rfl
      · exact ih j hlt
      · exact ⟨_, _, hbefore, hfails⟩

/-- What stands in front of the next test only pushes, so the branch comes to it. -/
theorem Branch.ComesTo.exists_next {b : Branch} (hb : b.PushesTests) {k : Nat} {below : Stack}
    {v : Value} (h : b.ComesTo k (below ++ [v])) (hfails : v.isTruthy = false)
    (hk : k < b.elbr.length) : ∃ tested, b.ComesTo (k + 1) tested := by
  have hclause : b.elbr[k]? = some b.elbr[k] := List.getElem?_eq_getElem hk
  obtain ⟨own, hcond⟩ := (hb.elbr _ (List.getElem_mem hk)).exists_flow
  exact ⟨below ++ own, .next h hfails hclause hcond⟩

theorem Branch.exists_comesTo {b : Branch} (hb : b.PushesTests) {k : Nat}
    (hk : k ≤ b.elbr.length) (hbefore : ∀ j < k, b.FailsTest j) : ∃ tested, b.ComesTo k tested := by
  cases k with
  | zero =>
      obtain ⟨pre, hpre⟩ := hb.pre.exists_flow
      obtain ⟨cond, hcond⟩ := hb.cond.exists_flow
      exact ⟨pre ++ cond, .first hpre hcond⟩
  | succ k =>
      obtain ⟨below, v, hcomes, hfails⟩ := hbefore k (Nat.lt_succ_self k)
      exact hcomes.exists_next hb hfails hk

theorem Branch.ComesTo.exists_endsTests {b : Branch} {k : Nat} {tested : Stack}
    (h : b.ComesTo k tested) : ∃ k tested, b.EndsTests k tested := by
  by_cases hnext : ∃ tested', b.ComesTo (k + 1) tested'
  · obtain ⟨tested', hnext⟩ := hnext
    exact hnext.exists_endsTests
  · exact ⟨k, tested, h, not_exists.mp hnext⟩
termination_by b.elbr.length - k
decreasing_by
  have := hnext.le
  omega

/-! ## What the branch does at a test -/

theorem Branch.runFrom_append (b : Branch) (k : Nat) (below : Stack) (v : Value) :
    b.runFrom k (below ++ [v]) =
      if v.isTruthy then runAll (b.bodyOf k) below
      else runClauses (b.elbr.drop k) below (runAlternative b.el) :=
  testTop_append _ _ _ _ _

theorem Branch.runClauses_drop {b : Branch} {k : Nat} {clause : Elbr}
    (h : b.elbr[k]? = some clause) (below : Stack) :
    runClauses (b.elbr.drop k) below (runAlternative b.el) =
      (runAll clause.cond below).andThen (b.runFrom (k + 1)) := by
  have hdrop : b.elbr.drop k = clause :: b.elbr.drop (k + 1) := by
    obtain ⟨hk, rfl⟩ := List.getElem?_eq_some_iff.mp h
    exact List.drop_eq_getElem_cons hk
  have hget : b.elbr.getD k {} = clause := by
    rw [List.getD_eq_getElem?_getD, h, Option.getD_some]
  rw [hdrop, runClauses_cons]
  apply congrArg
  funext tested
  simp only [Branch.runFrom, Branch.tester, Branch.bodyOf, hget]

/-- The run of a branch is what goes on from any test that it comes to. -/
theorem Branch.ComesTo.flow_eq {b : Branch} {k : Nat} {tested : Stack} (h : b.ComesTo k tested) :
    b.flow = (b.runFrom k tested).result.bind fun left => (flowAll b.post).map (left ++ ·) := by
  induction h with
  | first hpre hcond =>
      rw [b.flow_eq, hpre, hcond]
      rfl
  | @next k below own v clause hbefore hfails hclause hcond ih =>
      have hrun : runAll clause.cond below = .done (below ++ own) :=
        runAll_eq_done.mpr ⟨own, hcond, rfl⟩
      rw [ih, b.runFrom_append, hfails, if_neg Bool.false_ne_true, Branch.runClauses_drop hclause,
        hrun, Run.andThen_done]

theorem Branch.ComesTo.flow_of_dry {b : Branch} {k : Nat} (h : b.ComesTo k []) :
    b.flow = .error (.emptyStack (b.tester k)) := by
  rw [h.flow_eq]
  rfl

theorem Branch.ComesTo.flow_of_last {b : Branch} {k : Nat} {below : Stack} {v : Value}
    (h : b.ComesTo k (below ++ [v])) (hlast : v.isTruthy = true ∨ k = b.elbr.length) :
    b.flow = (flowAll (b.sequenceAfter k v)).bind fun own =>
      (flowAll b.post).map (below ++ own ++ ·) := by
  have hrun : b.runFrom k (below ++ [v]) = runAll (b.sequenceAfter k v) below := by
    rw [b.runFrom_append, Branch.sequenceAfter]
    cases truth : v.isTruthy with
    | true => rfl
    | false =>
        have hk := hlast.resolve_left (by simp [truth])
        rw [hk, List.drop_length]
        exact runAlternative_eq b.el below
  rw [h.flow_eq, hrun, result_runAll]
  cases flowAll (b.sequenceAfter k v) <;> rfl

theorem Branch.EndsTests.dry_or_last {b : Branch} (hb : b.PushesTests) {k : Nat} {tested : Stack}
    (h : b.EndsTests k tested) : tested = [] ∨
      ∃ below v, tested = below ++ [v] ∧ (v.isTruthy = true ∨ k = b.elbr.length) := by
  obtain ⟨hcomes, hnone⟩ := h
  rcases List.eq_nil_or_concat' tested with hdry | ⟨below, v, rfl⟩
  · exact Or.inl hdry
  · refine Or.inr ⟨below, v, rfl, ?_⟩
    cases truth : v.isTruthy with
    | true => exact Or.inl rfl
    | false =>
        refine Or.inr (Nat.le_antisymm hcomes.le (Nat.not_lt.mp ?_))
        intro hk
        obtain ⟨tested', hnext⟩ := hcomes.exists_next hb truth hk
        exact hnone tested' hnext

theorem Branch.RunsBehind.exists_flow {b : Branch} (hb : b.RunsBehind) {k : Nat}
    (hk : k ≤ b.elbr.length) (v : Value) : ∃ own, flowAll (b.sequenceAfter k v) = .ok own := by
  unfold Branch.sequenceAfter
  split
  · cases k with
    | zero => exact hb.body
    | succ k =>
        rw [Branch.bodyOf, List.getD_eq_getElem?_getD, List.getElem?_eq_getElem hk]
        exact hb.elbr _ (List.getElem_mem hk)
  · cases hel : b.el with
    | none => exact ⟨[], rfl⟩
    | some body => exact hb.el body hel

/-! ## The balance -/

theorem Branch.flow_of_supply_eq {b : Branch} (htests : b.PushesTests) {k : Nat}
    (hk : k ≤ b.elbr.length) (hsupply : b.supply k = k) (hfailed : ∀ j < k, b.FailsTest j) :
    b.flow = .error (.emptyStack (b.tester k)) := by
  obtain ⟨tested, hcomes⟩ := Branch.exists_comesTo htests hk hfailed
  have hlength := hcomes.length htests
  have hnone : tested = [] := List.length_eq_zero_iff.mp (by omega)
  subst hnone
  exact hcomes.flow_of_dry

theorem Branch.exists_endsTests {b : Branch} (htests : b.PushesTests) :
    ∃ k tested, b.EndsTests k tested := by
  obtain ⟨tested, hfirst⟩ := Branch.exists_comesTo htests (Nat.zero_le _)
    fun j hj => absurd hj (Nat.not_lt_zero j)
  exact hfirst.exists_endsTests

/-- All that runs after the last test comes to its end, so only a test can fail. -/
theorem Branch.exists_supply_eq {b : Branch} (htests : b.PushesTests) (hruns : b.RunsBehind)
    {error : FlowError} (herror : b.flow = .error error) :
    ∃ k ≤ b.elbr.length, b.supply k = k ∧ ∀ j < k, b.FailsTest j := by
  obtain ⟨k, tested, hlast⟩ := Branch.exists_endsTests htests
  have hcomes := hlast.1
  rcases hlast.dry_or_last htests with rfl | ⟨below, v, rfl, hv⟩
  · have hlength := hcomes.length htests
    rw [List.length_nil, Nat.zero_add] at hlength
    exact ⟨k, hcomes.le, hlength.symm, hcomes.failsTest⟩
  · obtain ⟨own, hown⟩ := hruns.exists_flow hcomes.le v
    obtain ⟨above, hpost⟩ := hruns.post
    rw [hcomes.flow_of_last hv, hown, hpost] at herror
    cases herror

theorem Branch.EndsTests.length_flow {b : Branch} (htests : b.PushesTests) (hruns : b.RunsBehind)
    {k : Nat} {tested left : Stack} (hlast : b.EndsTests k tested) (hleft : b.flow = .ok left) :
    ∃ below v own above, tested = below ++ [v] ∧ flowAll (b.sequenceAfter k v) = .ok own ∧
      flowAll b.post = .ok above ∧
      left.length + (k + 1) = b.supply k + own.length + above.length := by
  have hcomes := hlast.1
  rcases hlast.dry_or_last htests with rfl | ⟨below, v, rfl, hv⟩
  · rw [hcomes.flow_of_dry] at hleft
    cases hleft
  · obtain ⟨own, hown⟩ := hruns.exists_flow hcomes.le v
    obtain ⟨above, hpost⟩ := hruns.post
    refine ⟨below, v, own, above, rfl, hown, hpost, ?_⟩
    have hlength := hcomes.length htests
    rw [hcomes.flow_of_last hv, hown, hpost] at hleft
    cases hleft
    simp only [List.length_append, List.length_singleton] at hlength ⊢
    omega

/-- Where the sequences in front of the tests only push and those behind them run, the number of
pushes decides. Test `k` finds all operands that were pushed up to it, less the `k` that the tests
before have taken. The branch fails exactly if it comes to a test where none is left, and the sender
is the construct of that test; else it leaves as many operands as the last test does, and those of
the sequence taken then and of `post`. -/
theorem Branch.supply_decides_flow (b : Branch) (htests : b.PushesTests) (hruns : b.RunsBehind) :
    (∀ k tested, b.ComesTo k tested → k ≤ b.elbr.length ∧ tested.length + k = b.supply k ∧
      b.flow = (b.runFrom k tested).result.bind fun left => (flowAll b.post).map (left ++ ·)) ∧
    ((∃ error, b.flow = .error error) ↔
      ∃ k ≤ b.elbr.length, b.supply k = k ∧ ∀ j < k, b.FailsTest j) ∧
    (∀ k ≤ b.elbr.length, b.supply k = k → (∀ j < k, b.FailsTest j) →
      b.flow = .error (.emptyStack (b.tester k))) ∧
    ∀ left, b.flow = .ok left → (∃ k tested, b.EndsTests k tested) ∧
      ∀ k tested, b.EndsTests k tested → ∃ below v own above, tested = below ++ [v] ∧
        flowAll (b.sequenceAfter k v) = .ok own ∧ flowAll b.post = .ok above ∧
        left.length + (k + 1) = b.supply k + own.length + above.length := by
  have hdry (k : Nat) (hk : k ≤ b.elbr.length) (hsupply : b.supply k = k)
      (hfailed : ∀ j < k, b.FailsTest j) : b.flow = .error (.emptyStack (b.tester k)) :=
    Branch.flow_of_supply_eq htests hk hsupply hfailed
  refine ⟨?_, ⟨?_, ?_⟩, hdry, ?_⟩
  · intro k tested hcomes
    exact ⟨hcomes.le, hcomes.length htests, hcomes.flow_eq⟩
  · rintro ⟨error, herror⟩
    exact Branch.exists_supply_eq htests hruns herror
  · rintro ⟨k, hk, hsupply, hfailed⟩
    exact ⟨_, hdry k hk hsupply hfailed⟩
  · intro left hleft
    refine ⟨Branch.exists_endsTests htests, ?_⟩
    intro k tested hlast
    exact hlast.length_flow htests hruns hleft

/-- The first clause pushes for the second one too, but not for the third. -/
def payingBranch : Branch where
  cond := pushes [.bool false]
  elbr := [{ cond := pushes [.bool false, .nil] }, {}, { body := pushes [.int 3] }]

/-- The third clause pushes for itself, and there is an alternative behind it. -/
def servedBranch : Branch where
  cond := pushes [.bool false]
  elbr := [{ cond := pushes [.bool false, .nil] }, {}, { cond := pushes [.nil] }]
  el := some (pushes [.int 7, .int 8])
  post := pushes [.int 9]

theorem payingBranch_supply_decides_flow :
    payingBranch.PushesTests ∧ payingBranch.RunsBehind ∧ payingBranch.supply 3 = 3 ∧
      (∀ j < 3, payingBranch.FailsTest j) ∧
      payingBranch.flow = .error (.emptyStack (.elbr { body := pushes [.int 3] })) ∧
      servedBranch.PushesTests ∧ servedBranch.RunsBehind ∧ servedBranch.EndsTests 3 [.nil] ∧
      servedBranch.flow = .ok [.int 7, .int 8, .int 9] ∧
      ∃ below v own above, [.nil] = below ++ [v] ∧
        flowAll (servedBranch.sequenceAfter 3 v) = .ok own ∧
        flowAll servedBranch.post = .ok above ∧
        3 + (3 + 1) = servedBranch.supply 3 + own.length + above.length := by
  have hpushes := onlyPushes_pushes
  have hruns (values : List Value) : ∃ own, flowAll (pushes values) = .ok own :=
    ⟨values, flowAll_pushes values⟩
  have hpaying : payingBranch.PushesTests := by
    refine ⟨hpushes [], hpushes [.bool false], ?_⟩
    simpa [payingBranch] using ⟨hpushes _, hpushes []⟩
  have hpaid : payingBranch.RunsBehind := by
    refine ⟨hruns [], ?_, nofun, hruns []⟩
    simpa [payingBranch] using ⟨hruns [], hruns _⟩
  have hserving : servedBranch.PushesTests := by
    refine ⟨hpushes [], hpushes [.bool false], ?_⟩
    simpa [servedBranch] using ⟨hpushes _, hpushes [], hpushes _⟩
  have hserved : servedBranch.RunsBehind := by
    refine ⟨hruns [], ?_, ?_, hruns [.int 9]⟩
    · simpa [servedBranch] using ⟨_, flowAll_pushes []⟩
    · simpa [servedBranch] using hruns _
  have htests (b : Branch) (hpre : flowAll b.pre = .ok [])
      (hcond : flowAll b.cond = .ok [.bool false])
      (hfirst : b.elbr[0]? = some { cond := pushes [.bool false, .nil] })
      (hsecond : b.elbr[1]? = some ({} : Elbr)) : b.ComesTo 2 [.bool false] := by
    have hzero : b.ComesTo 0 ([] ++ [.bool false]) := .first hpre hcond
    have hone : b.ComesTo 1 ([] ++ [.bool false, .nil]) := .next hzero rfl hfirst rfl
    have hbelow : b.ComesTo 1 ([.bool false] ++ [.nil]) := hone
    exact .next hbelow rfl hsecond rfl
  have hlast : payingBranch.ComesTo 2 ([] ++ [.bool false]) := htests payingBranch rfl rfl rfl rfl
  have hdry : payingBranch.ComesTo 3 [] := .next hlast rfl rfl rfl
  have hbefore : servedBranch.ComesTo 2 ([] ++ [.bool false]) := htests servedBranch rfl rfl rfl rfl
  have hcomes : servedBranch.ComesTo 3 [.nil] := .next hbefore rfl rfl rfl
  have hends : servedBranch.EndsTests 3 [.nil] :=
    ⟨hcomes, fun tested hnext => absurd hnext.le (by decide)⟩
  have hflow : servedBranch.flow = .ok [.int 7, .int 8, .int 9] := rfl
  obtain ⟨-, -, hfails, -⟩ := payingBranch.supply_decides_flow hpaying hpaid
  obtain ⟨-, -, -, hleaves⟩ := servedBranch.supply_decides_flow hserving hserved
  exact ⟨hpaying, hpaid, rfl, hdry.failsTest, hfails 3 (by decide) rfl hdry.failsTest, hserving,
    hserved, hends, hflow, (hleaves _ hflow).2 3 _ hends⟩

end BranchCases
