import BranchCases.Generation
import BranchCases.Proofs.Nesting

/-
Steps of the generator that write to a sink. A step writes certain bytes when it leaves them
at the end of every sink that has room for them, and as many as fit in one that has not.
Main result: the emission of branches writes the lines of those that are wanted
(`writes_foldlM`).
-/
namespace BranchCases

/-! ## The room in a sink -/

/-- The sink with the bytes at its end, whatever its limit. -/
def Sink.put (sink : Sink) (bytes : ByteArray) : Sink :=
  { sink with written := sink.written ++ bytes }

def Sink.Fits (sink : Sink) (bytes : ByteArray) : Prop :=
  sink.room bytes.size = bytes.size

theorem Sink.room_le (sink : Sink) (size : Nat) : sink.room size ≤ size := by
  unfold Sink.room
  cases sink.limit with
  | none => exact Nat.le_refl size
  | some limit => exact Nat.min_le_left _ _

theorem Sink.put_empty (sink : Sink) : sink.put .empty = sink := by
  rw [Sink.put, ByteArray.append_empty]

theorem Sink.put_put (sink : Sink) (first second : ByteArray) :
    (sink.put first).put second = sink.put (first ++ second) := by
  simp only [Sink.put, ByteArray.append_assoc]

theorem Sink.fits_empty (sink : Sink) : sink.Fits .empty :=
  Nat.le_zero.mp (sink.room_le 0)

theorem Sink.fits_of_limit_none {sink : Sink} (h : sink.limit = none) (bytes : ByteArray) :
    sink.Fits bytes := by
  rw [Sink.Fits, Sink.room, h]

/-- Where a first piece fits, the room for a second one is what is left after the first. -/
theorem Sink.room_append {sink : Sink} {first : ByteArray} (h : sink.Fits first)
    (second : ByteArray) :
    sink.room (first ++ second).size = first.size + (sink.put first).room second.size := by
  unfold Sink.Fits Sink.room at h
  unfold Sink.room Sink.put
  cases hlimit : sink.limit with
  | none => simp only [ByteArray.size_append]
  | some limit =>
      simp only [hlimit] at h
      simp only [ByteArray.size_append]
      omega

/-- Where a first piece does not fit, there is no more room for both. -/
theorem Sink.room_append_of_not_fits {sink : Sink} {first : ByteArray} (h : ¬ sink.Fits first)
    (second : ByteArray) : sink.room (first ++ second).size = sink.room first.size := by
  unfold Sink.Fits Sink.room at h
  unfold Sink.room
  cases hlimit : sink.limit with
  | none => simp only [hlimit, not_true_eq_false] at h
  | some limit =>
      simp only [hlimit] at h
      simp only [ByteArray.size_append]
      omega

theorem Sink.fits_append {sink : Sink} {first second : ByteArray} :
    sink.Fits (first ++ second) ↔ sink.Fits first ∧ (sink.put first).Fits second := by
  constructor
  · intro h
    have hfirst : sink.Fits first := by
      refine Classical.byContradiction fun hcut => ?_
      have hroom := Sink.room_append_of_not_fits hcut second
      have hle := sink.room_le first.size
      unfold Sink.Fits at h hcut
      rw [ByteArray.size_append] at h hroom
      omega
    refine ⟨hfirst, ?_⟩
    have hroom := Sink.room_append hfirst second
    unfold Sink.Fits at h ⊢
    rw [ByteArray.size_append] at h hroom
    omega
  · intro ⟨hfirst, hsecond⟩
    have hroom := Sink.room_append hfirst second
    unfold Sink.Fits at hsecond ⊢
    rw [hroom, hsecond, ByteArray.size_append]

/-! ## Steps that write -/

/-- Where the bytes fit, the step puts them in the sink and gives `a`; elsewhere it puts in
those that fit and ends in the refusal of the sink. -/
structure Writes {α : Type} (step : EStateM GenerateError Sink α) (bytes : ByteArray) (a : α) :
    Prop where
  fits : ∀ sink : Sink, sink.Fits bytes → step.run sink = .ok a (sink.put bytes)
  full : ∀ sink : Sink, ¬ sink.Fits bytes →
    step.run sink = .error (.write sink.refusal) (sink.put (bytes.extract 0 (sink.room bytes.size)))

theorem Writes.pure {α : Type} (a : α) :
    Writes (Pure.pure a : EStateM GenerateError Sink α) .empty a := by
  constructor
  · intro sink _
    rw [Sink.put_empty]
    rfl
  · intro sink h
    exact absurd sink.fits_empty h

theorem Writes.bind {α β : Type} {step : EStateM GenerateError Sink α}
    {next : α → EStateM GenerateError Sink β} {first second : ByteArray} {a : α} {b : β}
    (hstep : Writes step first a) (hnext : Writes (next a) second b) :
    Writes (step >>= next) (first ++ second) b := by
  constructor
  · intro sink h
    obtain ⟨hfirst, hsecond⟩ := Sink.fits_append.mp h
    simp only [EStateM.run_bind, hstep.fits sink hfirst, hnext.fits _ hsecond, Sink.put_put]
  · intro sink h
    -- Either the first piece is cut, or it fits and the second one is cut.
    by_cases hfirst : sink.Fits first
    · have hsecond : ¬ (sink.put first).Fits second :=
        fun hsecond => h (Sink.fits_append.mpr ⟨hfirst, hsecond⟩)
      have hwhole (more : Nat) : first.extract 0 (first.size + more) = first := by
        rw [← Nat.max_eq_left (Nat.le_add_right first.size more), ByteArray.extract_zero_max_size]
      simp only [EStateM.run_bind, hstep.fits sink hfirst, hnext.full _ hsecond, Sink.put_put,
        Sink.room_append hfirst, ByteArray.extract_append, hwhole, Nat.zero_sub,
        Nat.add_sub_cancel_left]
      rfl
    · have hle := sink.room_le first.size
      simp only [EStateM.run_bind, hstep.full sink hfirst, Sink.room_append_of_not_fits hfirst,
        ByteArray.extract_append, Nat.zero_sub, Nat.sub_eq_zero_of_le hle, ByteArray.extract_same,
        ByteArray.append_empty]

theorem Sink.run_write (piece : ByteArray) (sink : Sink) :
    (Sink.write piece).run sink =
      if sink.room piece.size < piece.size then
        .error sink.refusal (sink.put (piece.extract 0 (sink.room piece.size)))
      else .ok () (sink.put (piece.extract 0 (sink.room piece.size))) := rfl

theorem writes_emitLine (line : String) : Writes (emitLine line) (line ++ "\n").toUTF8 () := by
  constructor
  · intro sink h
    have hroom : ¬ sink.room (line ++ "\n").toUTF8.size < (line ++ "\n").toUTF8.size := by
      rw [h]
      exact Nat.lt_irrefl _
    rw [emitLine, EStateM.run_adaptExcept, Sink.run_write, if_neg hroom, h,
      ByteArray.extract_zero_size]
  · intro sink h
    have hroom : sink.room (line ++ "\n").toUTF8.size < (line ++ "\n").toUTF8.size :=
      Nat.lt_of_le_of_ne (sink.room_le _) h
    rw [emitLine, EStateM.run_adaptExcept, Sink.run_write, if_pos hroom]

/-! ## Lines of branches -/

/-- The bytes of lines, each with its line break. -/
def linesBytes (lines : List String) : ByteArray :=
  (String.join (lines.map (· ++ "\n"))).toUTF8

theorem linesBytes_cons (line : String) (lines : List String) :
    linesBytes (line :: lines) = (line ++ "\n").toUTF8 ++ linesBytes lines := by
  simp only [linesBytes, List.map_cons, String.join_cons, String.toUTF8_eq_toByteArray,
    String.toByteArray_append]

/-- A line has its line break at least. -/
theorem size_linesBytes_eq_zero {lines : List String} :
    (linesBytes lines).size = 0 ↔ lines = [] := by
  cases lines with
  | nil => exact iff_of_true rfl rfl
  | cons line lines =>
      have hbreak : 0 < "\n".toByteArray.size := by decide
      refine iff_of_false ?_ (List.cons_ne_nil line lines)
      rw [linesBytes_cons, String.toUTF8_eq_toByteArray, String.toByteArray_append,
        ByteArray.size_append, ByteArray.size_append]
      omega

/-- The test line of a branch that can run. -/
def Branch.line (format : Format) (b : Branch) : String :=
  testLine format b (b.flow.toOption.getD [])

theorem Branch.testCase_of_isValid {b : Branch} (h : b.isValid) (format : Format) :
    b.testCase format = .ok (b.line format) := by
  obtain ⟨left, hflow⟩ := Branch.isValid_iff.mp h
  rw [Branch.testCase, Branch.line, hflow]
  rfl

/-- The branches whose sources are wanted. -/
def GenerateOptions.wanted (options : GenerateOptions) (branches : List Branch) : List Branch :=
  branches.filter fun b => options.admits b.source

/-- A wanted branch is written as its test case, and the failure to have one is passed on. -/
theorem emitTest_of_wanted {options : GenerateOptions} {b : Branch}
    (h : options.admits b.source) (emitted : Nat) :
    emitTest options emitted b =
      match b.testCase options.format with
      | .error error => throw (.flow error)
      | .ok line => (do emitLine line; pure (emitted + 1)) := by
  rw [emitTest, if_pos h, Branch.testCase]
  cases b.flow with
  | error error => rfl
  | ok expected => rfl

theorem writes_emitTest {options : GenerateOptions} {b : Branch} {line : String}
    (hwanted : options.admits b.source) (hline : b.testCase options.format = .ok line)
    (emitted : Nat) :
    Writes (emitTest options emitted b) (line ++ "\n").toUTF8 (emitted + 1) := by
  rw [emitTest_of_wanted hwanted, hline,
    ← ByteArray.append_empty (b := (line ++ "\n").toUTF8)]
  exact (writes_emitLine line).bind (Writes.pure (emitted + 1))

theorem emitTest_of_not_wanted {options : GenerateOptions} {b : Branch}
    (h : ¬ options.admits b.source) (emitted : Nat) :
    emitTest options emitted b = pure emitted := by
  rw [emitTest, if_neg h]

/-- Only the wanted branches have to be valid: the others are not run. -/
theorem writes_foldlM (options : GenerateOptions) {branches : List Branch}
    (h : ∀ b ∈ options.wanted branches, b.isValid) (emitted : Nat) :
    Writes (branches.foldlM (emitTest options) emitted)
      (linesBytes ((options.wanted branches).map (Branch.line options.format)))
      (emitted + (options.wanted branches).length) := by
  induction branches generalizing emitted with
  | nil => exact Writes.pure emitted
  | cons b branches ih =>
      rw [List.foldlM_cons]
      by_cases hwanted : options.admits b.source
      · have hcons : options.wanted (b :: branches) = b :: options.wanted branches :=
          List.filter_cons_of_pos hwanted
        rw [hcons, List.forall_mem_cons] at h
        rw [hcons, List.map_cons, linesBytes_cons, List.length_cons, Nat.add_comm _ 1,
          ← Nat.add_assoc]
        have hline := Branch.testCase_of_isValid h.1 options.format
        exact (writes_emitTest hwanted hline emitted).bind (ih h.2 (emitted + 1))
      · have hcons : options.wanted (b :: branches) = options.wanted branches :=
          List.filter_cons_of_neg hwanted
        rw [hcons] at h ⊢
        rw [emitTest_of_not_wanted hwanted, pure_bind]
        exact ih h emitted

end BranchCases
