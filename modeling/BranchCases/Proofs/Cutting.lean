import BranchCases.Proofs.Output

/-
Sinks that run out of room. Main result: whatever the limit of a sink, it holds as much of the
whole output as it takes, and the run ends in the refusal exactly where something is missing.
-/
namespace BranchCases

section

variable (limit : Nat) (refusal : WriteError)

theorem Sink.fits_limited {bytes : ByteArray} :
    Sink.Fits { limit := some limit, refusal } bytes ↔ ¬ limit < bytes.size := by
  have hroom : Sink.room { limit := some limit, refusal } bytes.size = min bytes.size limit := rfl
  rw [Sink.Fits, hroom]
  omega

theorem Sink.put_limited (bytes : ByteArray) :
    Sink.put { limit := some limit, refusal } bytes =
      { limit := some limit, refusal, written := bytes } := by
  rw [Sink.put, ByteArray.empty_append]

theorem Sink.put_cut {bytes : ByteArray} (h : limit < bytes.size) :
    Sink.put { limit := some limit, refusal }
        (bytes.extract 0 (Sink.room { limit := some limit, refusal } bytes.size)) =
      { limit := some limit, refusal, written := bytes.extract 0 limit } := by
  have hroom : Sink.room { limit := some limit, refusal } bytes.size = limit :=
    Nat.min_eq_right (Nat.le_of_lt h)
  rw [hroom, Sink.put_limited]

/-- What a step that writes does to a sink with a limit. -/
theorem Writes.run_limited {α : Type} {step : EStateM GenerateError Sink α} {bytes : ByteArray}
    {a : α} (h : Writes step bytes a) :
    step.run { limit := some limit, refusal } =
      if limit < bytes.size then
        .error (.write refusal) { limit := some limit, refusal, written := bytes.extract 0 limit }
      else .ok a { limit := some limit, refusal, written := bytes } := by
  by_cases hcut : limit < bytes.size
  · have hfull := mt (Sink.fits_limited limit refusal).mp (not_not_intro hcut)
    rw [h.full _ hfull, if_pos hcut, Sink.put_cut limit refusal hcut]
  · have hfits := (Sink.fits_limited limit refusal).mpr hcut
    rw [h.fits _ hfits, if_neg hcut, Sink.put_limited]

theorem Suite.Generates.run_limited {suite : Suite} {options : GenerateOptions}
    {bytes : ByteArray} {outcome : Outcome} {log : List Record}
    (h : suite.Generates options bytes outcome log) :
    generate suite options { limit := some limit, refusal } =
      if limit < bytes.size then
        ⟨.error (.write refusal),
          { limit := some limit, refusal, written := bytes.extract 0 limit }, log⟩
      else
        ⟨.ok outcome, { limit := some limit, refusal, written := bytes },
          log ++ suite.closing outcome⟩ := by
  by_cases hcut : limit < bytes.size
  · have hfull := mt (Sink.fits_limited limit refusal).mp (not_not_intro hcut)
    rw [h.full _ hfull, if_pos hcut, Sink.put_cut limit refusal hcut]
  · have hfits := (Sink.fits_limited limit refusal).mpr hcut
    rw [h.fits _ hfits, if_neg hcut, Sink.put_limited]

end

/-- A sink with a limit. It holds the first bytes of the whole output, as many as it takes; the
run ends in the refusal of the sink where bytes are missing, and like the whole run elsewhere; and
its log is that of the whole run, but for the closing record of a run that was refused. -/
theorem generate_and_emitGrafts_limited :
    (∀ (suite : Suite) (options : GenerateOptions), ∃ outcome,
      (generate suite options {}).outcome = .ok outcome ∧
      (outcome = .unimplemented ↔ suite.isImplemented = false) ∧
      ∀ (limit : Nat) (refusal : WriteError),
        let whole := generate suite options {}
        let cut := generate suite options { limit := some limit, refusal }
        cut.sink.written = whole.sink.written.extract 0 (min limit whole.sink.written.size) ∧
        (cut.outcome = .error (.write refusal) ↔ limit < whole.sink.written.size) ∧
        (whole.sink.written.size ≤ limit → cut.outcome = whole.outcome) ∧
        whole.log = cut.log ++
          if limit < whole.sink.written.size then suite.closing outcome else []) ∧
    ∀ (options : GenerateOptions) (outers inners : List Branch),
      (∀ outer ∈ outers, outer.isValid) → (∀ inner ∈ inners, inner.isValid) →
      ∃ written emitted, (emitGrafts options outers inners).run {} = .ok emitted { written } ∧
        ∀ (limit : Nat) (refusal : WriteError),
          (emitGrafts options outers inners).run { limit := some limit, refusal } =
            if limit < written.size then
              .error (.write refusal)
                { limit := some limit, refusal, written := written.extract 0 limit }
            else .ok emitted { limit := some limit, refusal, written } := by
  constructor
  · intro suite options
    obtain ⟨bytes, outcome, log, hgenerates, hunimplemented⟩ := suite.exists_generates options
    have hwhole := hgenerates.fits {} (Sink.fits_of_limit_none rfl bytes)
    have hwritten : (generate suite options {}).sink.written = bytes := by
      rw [hwhole]
      exact ByteArray.empty_append
    refine ⟨outcome, congrArg Generation.outcome hwhole, hunimplemented, ?_⟩
    intro limit refusal
    dsimp only
    rw [hwritten, hwhole, hgenerates.run_limited limit refusal]
    by_cases hcut : limit < bytes.size
    · rw [if_pos hcut, if_pos hcut, Nat.min_eq_left (Nat.le_of_lt hcut)]
      exact ⟨rfl, iff_of_true rfl hcut, fun hfits => absurd hcut (Nat.not_lt.mpr hfits), rfl⟩
    · rw [if_neg hcut, if_neg hcut, Nat.min_eq_right (Nat.le_of_not_lt hcut),
        ByteArray.extract_zero_size, List.append_nil]
      exact ⟨rfl, iff_of_false (by simp) hcut, fun _ => rfl, rfl⟩
  · intro options outers inners houters hinners
    have hwrites := writes_emitGrafts houters hinners options
    refine ⟨_, _, ?_, fun limit refusal => hwrites.run_limited limit refusal⟩
    rw [hwrites.fits {} (Sink.fits_of_limit_none rfl _), Sink.put, ByteArray.empty_append]

theorem notice_and_nests_limited :
    (generate .brElbr {} {}).sink.written.size = 60 ∧
      (generate .brElbr {} { limit := some 60 }).outcome = (generate .brElbr {} {}).outcome ∧
      (generate .brElbr {} { limit := some 59 }).outcome = .error (.write .sinkFull) ∧
      (∀ outer ∈ [failingBranch, passingBranch], outer.isValid) ∧
      (∀ inner ∈ [passingBranch], inner.isValid) ∧
      ∃ written emitted,
        (emitGrafts sevenFirst [failingBranch, passingBranch] [passingBranch]).run {} =
          .ok emitted { written } ∧
        40 < written.size ∧
        (emitGrafts sevenFirst [failingBranch, passingBranch] [passingBranch]).run
            { limit := some 40, refusal := .deviceFull } =
          .error (.write .deviceFull)
            { limit := some 40, refusal := .deviceFull, written := written.extract 0 40 } := by
  have hsize : (generate .brElbr {} {}).sink.written.size = 60 := by decide
  have houters : ∀ outer ∈ [failingBranch, passingBranch], outer.isValid := by decide
  have hinners : ∀ inner ∈ [passingBranch], inner.isValid := by decide
  obtain ⟨outcome, -, -, hnotice⟩ := generate_and_emitGrafts_limited.1 .brElbr {}
  obtain ⟨-, -, hfits, -⟩ := hnotice 60 .sinkFull
  obtain ⟨-, hrefused, -, -⟩ := hnotice 59 .sinkFull
  obtain ⟨written, emitted, hwhole, hlimited⟩ :=
    generate_and_emitGrafts_limited.2 sevenFirst _ _ houters hinners
  have hcut : 40 < written.size := by
    obtain ⟨_, sink, hsink, hbytes⟩ : ∃ emitted sink,
        (emitGrafts sevenFirst [failingBranch, passingBranch] [passingBranch]).run {} =
          .ok emitted sink ∧ 40 < sink.written.size := ⟨_, _, rfl, by decide⟩
    rw [hwhole] at hsink
    cases hsink
    exact hbytes
  refine ⟨hsize, hfits (Nat.le_of_eq hsize), hrefused.mpr (by omega), houters, hinners, written,
    emitted, hwhole, hcut, ?_⟩
  rw [hlimited 40 .deviceFull, if_pos hcut]

end BranchCases
