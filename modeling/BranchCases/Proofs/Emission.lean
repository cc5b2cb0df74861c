import BranchCases.Proofs.Selecting
import BranchCases.Proofs.Writing

/-
Emission of the test lines of nested branches. Main results: what a run of the generator does to
any sink (`Suite.exists_generates`); and it never comes upon a branch that cannot run, because
nesting keeps validity.
-/
namespace BranchCases

/-! ## Runs of the generator -/

/-- The record that only a run has that came to its end. -/
def Suite.closing (suite : Suite) : Outcome → List Record
  | .generated emitted => [.event (some suite.span) (generatedEvent emitted)]
  | .unimplemented => []

/-- Where the bytes fit, a run puts them in the sink and ends in the outcome; elsewhere it puts
in those that fit and ends in the refusal of the sink, without a closing record. -/
structure Suite.Generates (suite : Suite) (options : GenerateOptions) (bytes : ByteArray)
    (outcome : Outcome) (log : List Record) : Prop where
  fits : ∀ sink : Sink, sink.Fits bytes → generate suite options sink =
    ⟨.ok outcome, sink.put bytes, log ++ suite.closing outcome⟩
  full : ∀ sink : Sink, ¬ sink.Fits bytes → generate suite options sink =
    ⟨.error (.write sink.refusal), sink.put (bytes.extract 0 (sink.room bytes.size)), log⟩

/-- A suite without a generator writes its notice. -/
theorem Suite.generates_notice {suite : Suite} (h : suite.families? = none)
    (options : GenerateOptions) :
    ∃ log, suite.Generates options (unimplementedNotice ++ "\n").toUTF8 .unimplemented log := by
  have hwrites := writes_emitLine unimplementedNotice
  refine ⟨[.entered suite.span], ?_, ?_⟩
  · intro sink hfits
    rw [generate, h]
    simp only [hwrites.fits sink hfits]
    rfl
  · intro sink hfull
    rw [generate, h]
    simp only [hwrites.full sink hfull]

/-- A suite with a generator writes what the emission of its nests does. -/
theorem Suite.generates_of_writes {suite : Suite} {families : Families}
    (h : suite.families? = some families) {options : GenerateOptions} {bytes : ByteArray}
    {emitted : Nat} (hwrites : Writes
      (emitGrafts options families.outer.kept.toList families.inner.kept.toList) bytes emitted) :
    ∃ log, suite.Generates options bytes (.generated emitted) log := by
  refine ⟨.entered suite.span :: (families.inner.log ++ families.outer.log).toList.map
    (Record.event (some suite.span)), ?_, ?_⟩
  · intro sink hfits
    rw [generate, h]
    simp only [hwrites.fits sink hfits]
    rfl
  · intro sink hfull
    rw [generate, h]
    simp only [hwrites.full sink hfull]

/-- The branches that a suite nests have been found valid. -/
theorem Suite.isValid_of_mem_families {suite : Suite} {families : Families}
    (h : suite.families? = some families) :
    (∀ b ∈ families.outer.kept.toList, b.isValid) ∧
      ∀ b ∈ families.inner.kept.toList, b.isValid := by
  cases suite with
  | brSolo | brEl =>
      cases h
      exact ⟨fun b hb => Pools.isValid_of_mem_kept _ hb, fun b hb => Pools.isValid_of_mem_kept _ hb⟩
  | brElbr | brElbrEl => cases h

theorem writes_emitGrafts_of_isValid (options : GenerateOptions) {outers inners : List Branch}
    (houters : ∀ outer ∈ outers, outer.isValid) (hinners : ∀ inner ∈ inners, inner.isValid) :
    Writes (emitGrafts options outers inners)
      (linesBytes ((options.wanted (grafts outers inners)).map (Branch.line options.format)))
      (options.wanted (grafts outers inners)).length := by
  have hvalid : ∀ b ∈ options.wanted (grafts outers inners), b.isValid := by
    intro b hb
    exact isValid_of_mem_grafts houters hinners b (List.mem_filter.mp hb).1
  have hwrites := writes_foldlM options hvalid 0
  rw [Nat.zero_add] at hwrites
  exact hwrites

/-- Every run writes bytes that do not depend on the sink and has an outcome of its own. -/
theorem Suite.exists_generates (suite : Suite) (options : GenerateOptions) :
    ∃ bytes outcome log, suite.Generates options bytes outcome log ∧
      (outcome = .unimplemented ↔ suite.isImplemented = false) := by
  rw [← suite.isSome_families?]
  cases hfamilies : suite.families? with
  | none =>
      obtain ⟨log, hgenerates⟩ := Suite.generates_notice hfamilies options
      exact ⟨_, _, log, hgenerates, by simp⟩
  | some families =>
      obtain ⟨houters, hinners⟩ := Suite.isValid_of_mem_families hfamilies
      obtain ⟨log, hgenerates⟩ := Suite.generates_of_writes hfamilies
        (writes_emitGrafts_of_isValid options houters hinners)
      exact ⟨_, _, log, hgenerates, by simp⟩

theorem generate_outcome_ne_flow (suite : Suite) (options : GenerateOptions) (sink : Sink)
    (error : FlowError) : (generate suite options sink).outcome ≠ .error (.flow error) := by
  obtain ⟨bytes, outcome, log, hgenerates, -⟩ := suite.exists_generates options
  by_cases hfits : sink.Fits bytes
  · rw [hgenerates.fits sink hfits]
    simp
  · rw [hgenerates.full sink hfits]
    simp

/-- Nesting keeps validity. A valid branch with a new body leaves what the body leaves, in
between operands of its own, or what it left before; so a nest of any depth runs, and the
generator never stops at a branch that cannot. -/
theorem graft_keeps_flow :
    (∀ (outer : Branch) (own : Stack), outer.flow = .ok own →
      ∃ below v above, outer.Tests below v above ∧
        (∀ inner, outer.around inner =
          if v.isTruthy then .ok (below ++ inner ++ above) else .ok own) ∧
        ∀ x : Statement,
          (v.isTruthy = true →
            (∀ s, x.flow = .ok s → (outer.withBody [x]).flow = .ok (below ++ s ++ above)) ∧
            ∀ error, x.flow = .error error → (outer.withBody [x]).flow = .error error) ∧
          (v.isTruthy = false → (outer.withBody [x]).flow = .ok own)) ∧
    (∀ (outers : List Branch) (inner : Branch) (s : Stack), (∀ outer ∈ outers, outer.isValid) →
      inner.flow = .ok s → ∀ depth, ∃ left,
        (outers.take depth).foldlM (fun s outer => outer.around s) s = .ok left ∧
        (inner.graftThrough (outers.take depth)).flow = .ok left) ∧
    ∀ (suite : Suite) (options : GenerateOptions) (sink : Sink) (error : FlowError),
      (generate suite options sink).outcome ≠ .error (.flow error) := by
  refine ⟨?_, ?_, generate_outcome_ne_flow⟩
  · intro outer own howns
    obtain ⟨below, v, above, htests⟩ := Branch.tests_of_flow howns
    refine ⟨below, v, above, htests, ?_, ?_⟩
    · intro inner
      rw [htests.around_eq, howns]
    · intro x
      rw [htests.flow_withBody, howns]
      constructor
      · intro truth
        rw [if_pos truth]
        constructor
        · intro s hs
          rw [hs, Except.map]
        · intro error herror
          rw [herror, Except.map]
      · intro truth
        rw [truth, if_neg Bool.false_ne_true]
  · intro outers inner s houters hinner depth
    exact Branch.flow_graftThrough
      (fun outer houter => houters outer (List.mem_of_mem_take houter)) hinner

/-- A branch whose condition passes, around its body. -/
def passingBranch : Branch where
  pre := pushes [.int 7]
  cond := pushes [.int 1111]
  post := pushes [.nil]

/-- A branch whose condition fails, so that a clause tests what is left. -/
def failingBranch : Branch where
  pre := pushes [.int 5]
  cond := pushes [.bool false]
  elbr := [{ cond := [], body := pushes [.string "taken"] }]

theorem graft_keeps_flow_nested :
    passingBranch.flow = .ok [.int 7, .nil] ∧
      (∀ outer ∈ [failingBranch, passingBranch], outer.isValid) ∧
      (∃ below v above, passingBranch.Tests below v above) ∧
      ∃ left, [failingBranch, passingBranch].foldlM (fun s outer => outer.around s)
          [.int 7, .nil] = .ok left ∧
        (passingBranch.graftThrough [failingBranch, passingBranch]).flow = .ok left := by
  have hflow : passingBranch.flow = .ok [.int 7, .nil] := rfl
  have hvalid : ∀ outer ∈ [failingBranch, passingBranch], outer.isValid := by decide
  obtain ⟨below, v, above, htests, -⟩ := graft_keeps_flow.1 passingBranch _ hflow
  exact ⟨hflow, hvalid, ⟨below, v, above, htests⟩,
    graft_keeps_flow.2.1 _ passingBranch _ hvalid hflow 2⟩

end BranchCases
