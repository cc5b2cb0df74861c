import BranchCases.Proofs.Arguments
import BranchCases.Proofs.Cutting
import BranchCases.Proofs.Occurrences

/-
Whole runs of the program. Main result: the order and the spelling of the arguments leave no trace
in what a run reports, and arguments that say too much or too little only get the listing.
-/
namespace BranchCases.CommandLine

theorem Device.flush_full (sink : Sink) : Device.full.flush sink =
    if sink.written.size = 0 then .ok () else .error (.write .deviceFull) := by
  unfold Device.flush
  by_cases hempty : sink.written.size = 0
  · rw [if_neg fun hpending => hpending.2 hempty, if_pos hempty]
  · rw [if_pos ⟨rfl, hempty⟩, if_neg hempty]

/-- The buffer takes the first bytes for a full device, so that a run of few bytes fails at its
very end; without any bytes nothing is written that could fail. -/
theorem report_full {suite : Suite} {options : GenerateOptions} {bytes : ByteArray}
    {outcome : Outcome} {log : List Record} (h : suite.Generates options bytes outcome log)
    (threshold : Option Level) :
    (report .full threshold suite options).code = if bytes.size = 0 then 0 else 1 := by
  have hrun : generate suite options Device.full.sink = _ := h.run_limited bufferSize .deviceFull
  by_cases hcut : bufferSize < bytes.size
  · have hbytes : ¬ bytes.size = 0 := Nat.ne_of_gt (Nat.zero_lt_of_lt hcut)
    rw [report, hrun, if_pos hcut, if_neg hbytes]
    rfl
  · rw [report, hrun, if_neg hcut]
    dsimp only
    rw [Device.flush_full]
    by_cases hbytes : bytes.size = 0
    · rw [if_pos hbytes, if_pos hbytes]
      rfl
    · rw [if_neg hbytes, if_neg hbytes]
      rfl

theorem report_working {suite : Suite} {options : GenerateOptions} {bytes : ByteArray}
    {outcome : Outcome} {log : List Record} (h : suite.Generates options bytes outcome log)
    (threshold : Option Level) :
    (report .working threshold suite options).code = 0 ∧
      (report .working threshold suite options).output = bytes := by
  have hrun : generate suite options Device.working.sink = _ :=
    h.fits {} (Sink.fits_of_limit_none rfl bytes)
  rw [report, hrun]
  exact ⟨rfl, ByteArray.empty_append⟩

/-- Groups of arguments in any order and spelling, with the suite behind a mark or not. Where they
ask for a suite, the run writes what is generated for it, and on a full device it fails unless that
is nothing. Where the suite is missing or said twice, or an option is said twice, the run fails,
writes nothing and lists the suites. -/
theorem runWith_any_order (readSearch : SearchReader) (threshold : Option Level)
    (groups : List Group) (rest : Option (List String)) :
    (∀ (suite : Suite) (format : Option Format) (pattern : Option String)
      (search : Option (String → Bool)), Asks groups rest suite format pattern →
      pattern.map readSearch = search.map Except.ok →
      let options : GenerateOptions := { format := format.getD .test, grep := search }
      let bytes := (generate suite options {}).sink.written
      let run := fun device => runWith readSearch device threshold (spell groups rest)
      (run .working).code = 0 ∧ (run .working).output = bytes ∧
        (run .full).code = if bytes.size = 0 then 0 else 1) ∧
    (Miscounted groups rest → ∀ device,
      let run := runWith readSearch device threshold (spell groups rest)
      run.code = 1 ∧ run.output = .empty ∧ run.listing = some suiteListing) := by
  constructor
  · intro suite format pattern search hasks hread
    have hcommand := hasks.ofArguments_eq hread
    intro options bytes run
    have hreport : ∀ device, run device = report device threshold suite options := by
      intro device
      dsimp only [run]
      rw [runWith, hcommand]
    obtain ⟨written, outcome, log, hgenerates, -⟩ := suite.exists_generates options
    have hbytes : bytes = written := by
      dsimp only [bytes]
      rw [hgenerates.fits {} (Sink.fits_of_limit_none rfl written)]
      exact ByteArray.empty_append
    obtain ⟨hcode, houtput⟩ := report_working hgenerates threshold
    rw [hreport, hreport, hbytes]
    exact ⟨hcode, houtput, report_full hgenerates threshold⟩
  · intro hmiscounted device
    obtain ⟨error, herror⟩ := hmiscounted.exists_error readSearch
    dsimp only
    rw [runWith, herror]
    exact ⟨rfl, rfl, rfl⟩

/-- The pattern `T`, a letter that stands in the nests that test a truth. -/
def truthPattern : Pattern :=
  .sequence (.one (.single 'T')) .empty

/-- The pattern `[a--a]`, a character of a set without any. -/
def absentPattern : Pattern :=
  let set : CharSet := .union .none (.single 'a')
  .sequence (.one (.diff set set)) .empty

theorem occursIn_absentPattern (text : String) : ¬ absentPattern.occursIn text := by
  intro h
  obtain ⟨i, j, -, -, k, ⟨-, c, -, hc⟩, -⟩ := (Pattern.occursIn_iff _ text).mp h
  rw [CharSet.contains, Bool.and_not_self] at hc
  cases hc

theorem brSolo_written_truthPattern :
    (generate .brSolo { format := .stateTest, grep := truthPattern.occursIn }
      {}).sink.written.size ≠ 0 := by
  rw [Ne, Suite.size_written_eq_zero rfl, ← List.isEmpty_iff]
  decide

theorem brSolo_written_absentPattern :
    (generate .brSolo { grep := absentPattern.occursIn } {}).sink.written.size = 0 := by
  rw [Suite.size_written_eq_zero rfl]
  exact List.filter_eq_nil_iff.mpr fun pair _ => occursIn_absentPattern _

theorem suites_any_order :
    Pattern.search "T" = .ok truthPattern.occursIn ∧
      Pattern.search "[a--a]" = .ok absentPattern.occursIn ∧
      Asks [.grep .apart "T", .format .joined .stateTest] (some ["br_elbr"]) .brElbr
        (some .stateTest) (some "T") ∧
      (run .working none ["--grep", "T", "--format=rust", "--", "br_elbr"]).code = 0 ∧
      (run .working none ["--grep", "T", "--format=rust", "--", "br_elbr"]).output =
        (generate .brElbr { format := .stateTest, grep := truthPattern.occursIn }
          {}).sink.written ∧
      (run .full none ["--grep", "T", "--format=rust", "--", "br_elbr"]).code = 1 ∧
      Asks [.format .apart .stateTest, .suite .brSolo, .grep .joined "T"] none .brSolo
        (some .stateTest) (some "T") ∧
      (run .working none ["--format", "rust", "br_solo", "--grep=T"]).code = 0 ∧
      (run .working none ["--format", "rust", "br_solo", "--grep=T"]).output =
        (generate .brSolo { format := .stateTest, grep := truthPattern.occursIn }
          {}).sink.written ∧
      (run .full none ["--format", "rust", "br_solo", "--grep=T"]).code = 1 ∧
      Asks [.grep .joined "[a--a]", .suite .brSolo] none .brSolo none (some "[a--a]") ∧
      (run .full none ["--grep=[a--a]", "br_solo"]).code = 0 ∧
      Miscounted [.suite .brEl, .grep .joined "7", .suite .brElbr] none ∧
      (run .full none ["br_el", "--grep=7", "br_elbr"]).code = 1 ∧
      (run .full none ["br_el", "--grep=7", "br_elbr"]).listing = some suiteListing := by
  have htruth : Pattern.search "T" = .ok truthPattern.occursIn := rfl
  have habsent : Pattern.search "[a--a]" = .ok absentPattern.occursIn := rfl
  have hread : (some "T").map Pattern.search = (some truthPattern.occursIn).map Except.ok :=
    congrArg some htruth
  have hreadabsent :
      (some "[a--a]").map Pattern.search = (some absentPattern.occursIn).map Except.ok :=
    congrArg some habsent
  have hnotice : Asks [.grep .apart "T", .format .joined .stateTest] (some ["br_elbr"]) .brElbr
      (some .stateTest) (some "T") := by
    constructor
    · exact .inr ⟨rfl, rfl⟩
    · rfl
    · rfl
    · simp [Group.IsSeparable]
  have hsolo : Asks [.format .apart .stateTest, .suite .brSolo, .grep .joined "T"] none .brSolo
      (some .stateTest) (some "T") := by
    constructor
    · exact .inl ⟨rfl, rfl⟩
    · rfl
    · rfl
    · simp [Group.IsSeparable]
  have hempty : Asks [.grep .joined "[a--a]", .suite .brSolo] none .brSolo none
      (some "[a--a]") := by
    constructor
    · exact .inl ⟨rfl, rfl⟩
    · rfl
    · rfl
    · simp [Group.IsSeparable]
  have hmiscounted : Miscounted [.suite .brEl, .grep .joined "7", .suite .brElbr] none :=
    .inl (by decide)
  -- Over any groups, since to compare two runs of closed arguments would be to compute them.
  have hrun (groups : List Group) (rest : Option (List String)) (suite : Suite)
      (format : Option Format) (pattern : Option String) (search : Option (String → Bool))
      (hasks : Asks groups rest suite format pattern)
      (hpattern : pattern.map Pattern.search = search.map Except.ok) (arguments : List String)
      (harguments : spell groups rest = arguments) :
      let bytes := (generate suite { format := format.getD .test, grep := search } {}).sink.written
      (run .working none arguments).code = 0 ∧ (run .working none arguments).output = bytes ∧
        (run .full none arguments).code = if bytes.size = 0 then 0 else 1 := by
    have h := (runWith_any_order Pattern.search none groups rest).1 _ _ _ _ hasks hpattern
    rw [harguments] at h
    exact h
  obtain ⟨hnoticed, hwords, hrefused⟩ := hrun _ _ _ _ _ _ hnotice hread
    ["--grep", "T", "--format=rust", "--", "br_elbr"] (by decide)
  obtain ⟨hcode, houtput, hfull⟩ := hrun _ _ _ _ _ _ hsolo hread
    ["--format", "rust", "br_solo", "--grep=T"] (by decide)
  obtain ⟨-, -, hnothing⟩ := hrun _ _ _ _ _ _ hempty hreadabsent
    ["--grep=[a--a]", "br_solo"] (by decide)
  obtain ⟨hfault, -, hlisting⟩ :=
    (runWith_any_order Pattern.search none _ _).2 hmiscounted .full
  rw [Option.getD_some] at hwords houtput hfull
  rw [if_neg brSolo_written_truthPattern] at hfull
  rw [Option.getD_none, if_pos brSolo_written_absentPattern] at hnothing
  exact ⟨htruth, habsent, hnotice, hnoticed, hwords, hrefused, hsolo, hcode, houtput, hfull, hempty,
    hnothing, hmiscounted, hfault, hlisting⟩

end BranchCases.CommandLine
