import BranchCases.Proofs.Emission
import Mathlib.Data.List.ProdSigma

/-
What the generator writes. Main result: the lines of the nests that are wanted, outer branch by
outer branch, and nothing else; their number is what it reports.
-/
namespace BranchCases

/-- The pairs of an outer and an inner branch whose nest has a wanted source. -/
def wantedPairs (options : GenerateOptions) (outers inners : List Branch) :
    List (Branch × Branch) :=
  (outers ×ˢ inners).filter fun pair => options.admits (pair.1.withBody [.branch pair.2]).source

/-- The test cases of the nests, if all of them can run. -/
def testCases (format : Format) (pairs : List (Branch × Branch)) :
    Except FlowError (List String) :=
  pairs.mapM fun pair => (pair.1.withBody [.branch pair.2]).testCase format

theorem grafts_eq_map_product (outers inners : List Branch) :
    grafts outers inners = (outers ×ˢ inners).map fun pair => pair.1.graft pair.2 := by
  induction outers with
  | nil => rfl
  | cons outer outers ih =>
      simp only [grafts, List.flatMap_cons, List.product_cons, List.map_append,
        List.map_map] at ih ⊢
      rw [ih]
      rfl

theorem wanted_grafts (options : GenerateOptions) (outers inners : List Branch) :
    options.wanted (grafts outers inners) =
      (wantedPairs options outers inners).map fun pair => pair.1.graft pair.2 := by
  rw [GenerateOptions.wanted, grafts_eq_map_product, List.filter_map]
  rfl

/-- The line of the nest of a pair that can run. -/
def pairLine (format : Format) (pair : Branch × Branch) : String :=
  (pair.1.graft pair.2).line format

theorem testCases_eq_ok (format : Format) {pairs : List (Branch × Branch)}
    (h : ∀ pair ∈ pairs, (pair.1.graft pair.2).isValid) :
    testCases format pairs = .ok (pairs.map (pairLine format)) := by
  induction pairs with
  | nil => rfl
  | cons pair pairs ih =>
      rw [List.forall_mem_cons] at h
      have hline : (pair.1.withBody [.branch pair.2]).testCase format =
          .ok (pairLine format pair) := Branch.testCase_of_isValid h.1 format
      have hrest := ih h.2
      unfold testCases at hrest ⊢
      rw [List.mapM_cons, hline, hrest]
      rfl

/-- The lines of the wanted nests stand in the order in which all the lines do. -/
theorem lines_sublist (options : GenerateOptions) (outers inners : List Branch) :
    ((wantedPairs options outers inners).map (pairLine options.format)).Sublist
      ((outers ×ˢ inners).map (pairLine options.format)) :=
  List.filter_sublist.map _

theorem wantedPairs_grep_none (format : Format) (outers inners : List Branch) :
    wantedPairs { format, grep := none } outers inners = outers ×ˢ inners := by
  refine List.filter_eq_self.mpr ?_
  intro pair _
  rfl

section

variable {outers inners : List Branch} (houters : ∀ outer ∈ outers, outer.isValid)
  (hinners : ∀ inner ∈ inners, inner.isValid)

include houters hinners

theorem isValid_of_mem_product : ∀ pair ∈ outers ×ˢ inners, (pair.1.graft pair.2).isValid := by
  intro pair hpair
  obtain ⟨houter, hinner⟩ := List.mem_product.mp hpair
  exact Branch.isValid_graft (houters _ houter) (hinners _ hinner)

theorem isValid_of_mem_wantedPairs (options : GenerateOptions) :
    ∀ pair ∈ wantedPairs options outers inners, (pair.1.graft pair.2).isValid := by
  intro pair hpair
  exact isValid_of_mem_product houters hinners pair (List.mem_filter.mp hpair).1

/-- The emission of nests writes the lines of the wanted ones and gives their number. -/
theorem writes_emitGrafts (options : GenerateOptions) :
    Writes (emitGrafts options outers inners)
      (linesBytes ((wantedPairs options outers inners).map (pairLine options.format)))
      (wantedPairs options outers inners).length := by
  have hwrites := writes_emitGrafts_of_isValid options houters hinners
  rw [wanted_grafts, List.map_map, List.length_map] at hwrites
  exact hwrites

end

/-- What a suite with a generator puts in a sink without limit, and what it reports. -/
theorem Suite.generate_unlimited {suite : Suite} {families : Families}
    (h : suite.families? = some families) (options : GenerateOptions) {sink : Sink}
    (hlimit : sink.limit = none) :
    (generate suite options sink).outcome = .ok (.generated
      (wantedPairs options families.outer.kept.toList families.inner.kept.toList).length) ∧
    (generate suite options sink).sink = sink.put (linesBytes ((wantedPairs options
      families.outer.kept.toList families.inner.kept.toList).map (pairLine options.format))) := by
  obtain ⟨houters, hinners⟩ := Suite.isValid_of_mem_families h
  obtain ⟨log, hgenerates⟩ := Suite.generates_of_writes h
    (writes_emitGrafts houters hinners options)
  have hrun := hgenerates.fits sink (Sink.fits_of_limit_none hlimit _)
  exact ⟨congrArg Generation.outcome hrun, congrArg Generation.sink hrun⟩

/-- A suite with a generator writes nothing exactly if none of its nests is wanted. -/
theorem Suite.size_written_eq_zero {suite : Suite} {families : Families}
    (h : suite.families? = some families) (options : GenerateOptions) :
    (generate suite options {}).sink.written.size = 0 ↔
      wantedPairs options families.outer.kept.toList families.inner.kept.toList = [] := by
  rw [(Suite.generate_unlimited h options rfl).2, Sink.put, ByteArray.empty_append,
    size_linesBytes_eq_zero, List.map_eq_nil_iff]

/-- Emission into a sink without limit. Of the pairs of an outer and an inner branch, outer by
outer, it writes the test case of each whose nest is wanted, and a line break after it; it gives
the number of these pairs. -/
theorem emitGrafts_unlimited :
    (∀ (options : GenerateOptions) (outers inners : List Branch) (sink : Sink),
      (∀ outer ∈ outers, outer.isValid) → (∀ inner ∈ inners, inner.isValid) →
      sink.limit = none → ∃ all lines,
        testCases options.format (outers ×ˢ inners) = .ok all ∧
        testCases options.format (wantedPairs options outers inners) = .ok lines ∧
        lines.Sublist all ∧
        (emitGrafts { options with grep := none } outers inners).run sink =
          .ok (outers.length * inners.length)
            { sink with written := sink.written ++ linesBytes all } ∧
        (emitGrafts options outers inners).run sink =
          .ok (wantedPairs options outers inners).length
            { sink with written := sink.written ++ linesBytes lines }) ∧
    (∀ (pools : Pools) (accept : Branch → Bool), ∀ b ∈ pools.kept accept, b.isValid) ∧
    ∀ (suite : Suite) (options : GenerateOptions) (sink : Sink), suite.isImplemented = true →
      sink.limit = none → ∃ families lines, suite.families? = some families ∧
        testCases options.format
          (wantedPairs options families.outer.kept.toList families.inner.kept.toList) = .ok lines ∧
        (generate suite options sink).outcome = .ok (.generated
          (wantedPairs options families.outer.kept.toList families.inner.kept.toList).length) ∧
        (generate suite options sink).sink =
          { sink with written := sink.written ++ linesBytes lines } := by
  refine ⟨?_, fun pools accept b hb => Pools.isValid_of_mem_kept accept hb, ?_⟩
  · intro options outers inners sink houters hinners hlimit
    have hall := writes_emitGrafts houters hinners { options with grep := none }
    rw [wantedPairs_grep_none, List.length_product] at hall
    exact ⟨_, _, testCases_eq_ok _ (isValid_of_mem_product houters hinners),
      testCases_eq_ok _ (isValid_of_mem_wantedPairs houters hinners options),
      lines_sublist options outers inners, hall.fits sink (Sink.fits_of_limit_none hlimit _),
      (writes_emitGrafts houters hinners options).fits sink (Sink.fits_of_limit_none hlimit _)⟩
  · intro suite options sink himplemented hlimit
    rw [← suite.isSome_families?, Option.isSome_iff_exists] at himplemented
    obtain ⟨families, hfamilies⟩ := himplemented
    obtain ⟨houters, hinners⟩ := Suite.isValid_of_mem_families hfamilies
    obtain ⟨houtcome, hsink⟩ := Suite.generate_unlimited hfamilies options hlimit
    exact ⟨families, _, hfamilies,
      testCases_eq_ok _ (isValid_of_mem_wantedPairs houters hinners options), houtcome, hsink⟩

/-- Only sources that begin with a seven are wanted. -/
def sevenFirst : GenerateOptions where
  grep := some fun source => source.toList.head? == some '7'

theorem emitGrafts_unlimited_sevenFirst :
    (∀ outer ∈ [failingBranch, passingBranch], outer.isValid) ∧
      (∀ inner ∈ [passingBranch], inner.isValid) ∧
      (∃ lines, testCases .test [(passingBranch, passingBranch)] = .ok lines ∧
        (emitGrafts sevenFirst [failingBranch, passingBranch] [passingBranch]).run {} =
          .ok 1 { written := .empty ++ linesBytes lines }) ∧
      Suite.brSolo.isImplemented = true ∧
      ∃ families, Suite.brSolo.families? = some families ∧
        (generate .brSolo sevenFirst {}).outcome = .ok (.generated (wantedPairs sevenFirst
          families.outer.kept.toList families.inner.kept.toList).length) := by
  have houters : ∀ outer ∈ [failingBranch, passingBranch], outer.isValid := by decide
  have hinners : ∀ inner ∈ [passingBranch], inner.isValid := by decide
  have hwanted : wantedPairs sevenFirst [failingBranch, passingBranch] [passingBranch] =
      [(passingBranch, passingBranch)] := rfl
  obtain ⟨all, lines, -, hlines, -, -, hrun⟩ :=
    emitGrafts_unlimited.1 sevenFirst _ _ {} houters hinners rfl
  rw [hwanted] at hlines hrun
  obtain ⟨families, -, hfamilies, -, houtcome, -⟩ :=
    emitGrafts_unlimited.2.2 .brSolo sevenFirst {} rfl rfl
  exact ⟨houters, hinners, ⟨lines, hlines, hrun⟩, rfl, families, hfamilies, houtcome⟩

end BranchCases
