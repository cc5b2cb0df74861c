import BranchCases.Proofs.UniqueReading

/-
What a test line tells. A program is cut off after its last word, and an expected operand at the
comma behind it, which the quotes of a string literal hide. Main result: a line without quotes
inside its literals tells its notation, the source of its program and every expected operand.
-/
namespace BranchCases

/-- What stands before the program in a test line. -/
def Format.opening : Format → String
  | .test => "TEST("
  | .stateTest => "state_test!(r#\""

/-- What stands between the program and the expected operands. -/
def Format.middle : Format → String
  | .test => ", ["
  | .stateTest => "\"#, vec!["

def Format.ending : Format → String
  | .test => "])"
  | .stateTest => "]);"

theorem testLine_eq (format : Format) (f : Fragment) (expected : List Value) :
    testLine format f expected = format.opening ++ f.program ++ format.middle ++
      expectation format expected ++ format.ending := by
  cases format with
  | test | stateTest => rfl

/-- No word begins with the end of a program and what follows it in a line. -/
theorem Format.endsWords_middle (format : Format) (rest : List Char) :
    EndsWords ('\x7d' :: (format.middle.toList ++ rest)) := by
  cases format with
  | test => exact endsWords_closing (by decide) _
  | stateTest => exact endsWords_closing (by decide) _

theorem Branch.toList_program (b : Branch) (rest : List Char) :
    (Fragment.program b).toList ++ rest =
      "main \x7b ".toList ++ (spelled (tokensAll b.items) ++ '\x7d' :: rest) := by
  have hclosing : " \x7d".toList = [' ', '\x7d'] := rfl
  rw [b.program_eq, String.toList_append, String.toList_append, hclosing, ← b.toList_source]
  simp only [List.append_assoc, List.cons_append, List.nil_append]

/-- Lines of one notation are equal only where source and expectation are. -/
theorem eq_of_testLine_eq {format : Format} {a b : Branch} {expected expected' : List Value}
    (ha : a.QuoteFree) (hb : b.QuoteFree)
    (h : testLine format a expected = testLine format b expected') :
    a.source = b.source ∧ expectation format expected = expectation format expected' := by
  have hlist := congrArg String.toList h
  simp only [testLine_eq, String.toList_append, List.append_assoc, Branch.toList_program] at hlist
  have hwords := List.append_cancel_left (List.append_cancel_left hlist)
  obtain ⟨htokens, hrest⟩ := spelled_cancel ha.tokens hb.tokens (format.endsWords_middle _)
    (format.endsWords_middle _) hwords
  constructor
  · rw [Branch.source, Branch.source, a.write_eq, b.write_eq, htokens]
  · have hexpected := List.append_cancel_left (List.cons.inj hrest).2
    exact String.toList_inj.mp (List.append_cancel_right hexpected)

/-! ## Expected operands -/

/-- What an expectation is cut at: commas part the operands, quotes surround a text. -/
def marksOperand (c : Char) : Bool :=
  c == ',' || c == '"'

theorem unmarked_of_any {text : List Char} (h : text.any marksOperand = false) :
    ∀ c ∈ text, marksOperand c = false := by
  intro c hc
  exact Bool.eq_false_iff.mpr (List.any_eq_false.mp h c hc)

/-- What stands before the quoted text of a string literal. -/
def Format.beforeText : Format → List Char
  | .test => []
  | .stateTest => "BCVal::String(String::from(r#".toList

def Format.afterText : Format → List Char
  | .test => []
  | .stateTest => "#))".toList

theorem Format.toList_assertion_string (format : Format) (s : String) :
    (Value.assertion format (.string s)).toList =
      format.beforeText ++ '"' :: (s.toList ++ '"' :: format.afterText) := by
  have hquote : "\"".toList = ['"'] := rfl
  have hopening : "BCVal::String(String::from(r#\"".toList =
      "BCVal::String(String::from(r#".toList ++ ['"'] := rfl
  have hclosing : "\"#))".toList = '"' :: "#))".toList := rfl
  cases format with
  | test =>
      change ("\"" ++ s ++ "\"").toList = _
      rw [String.toList_append, String.toList_append, hquote, List.append_assoc]
      rfl
  | stateTest =>
      change ("BCVal::String(String::from(r#\"" ++ s ++ "\"#))").toList = _
      rw [String.toList_append, String.toList_append, hopening, hclosing, List.append_assoc,
        List.append_assoc]
      rfl

/-- The literals that are neither numbers nor texts. -/
def Value.constants : List Value :=
  [.bool true, .bool false, .nil]

/-- A literal whose assertion is one word. -/
def Value.IsWord (v : Value) : Prop :=
  (∃ n, v = .int n) ∨ v ∈ Value.constants

theorem Value.word_or_string (v : Value) : v.IsWord ∨ ∃ s, v = .string s := by
  cases v with
  | int n => exact Or.inl (Or.inl ⟨n, rfl⟩)
  | bool b => exact Or.inl (Or.inr (by cases b <;> decide))
  | nil => exact Or.inl (Or.inr (by decide))
  | string s => exact Or.inr ⟨s, rfl⟩

/-- The characters of the assertion of a number, but for its digits. -/
def numberFrame : List Char :=
  '-' :: "BCVal::Int()".toList

theorem mem_toList_assertion_int {format : Format} {n : Int64} {c : Char}
    (h : c ∈ (Value.assertion format (.int n)).toList) : c ∈ numberFrame ∨ c.isDigit := by
  have number (hc : c ∈ n.toInt.repr.toList) : c ∈ numberFrame ∨ c.isDigit := by
    rcases mem_toList_repr hc with rfl | digit
    · exact Or.inl List.mem_cons_self
    · exact Or.inr digit
  cases format with
  | test => exact number h
  | stateTest =>
      have hopening : "BCVal::Int(".toList.Sublist numberFrame := by decide
      have hclosing : ")".toList.Sublist numberFrame := by decide
      change c ∈ ("BCVal::Int(" ++ n.toInt.repr ++ ")").toList at h
      rw [String.toList_append, String.toList_append, List.mem_append, List.mem_append] at h
      rcases h with (hc | hc) | hc
      · exact Or.inl (hopening.subset hc)
      · exact number hc
      · exact Or.inl (hclosing.subset hc)

theorem Value.IsWord.marksOperand_eq_false {format : Format} {v : Value} (h : v.IsWord) :
    ∀ c ∈ (v.assertion format).toList, marksOperand c = false := by
  have frame : numberFrame.any marksOperand = false := by decide
  have words : ∀ format, ∀ v ∈ Value.constants,
      (v.assertion format).toList.any marksOperand = false := by
    intro format
    cases format with
    | test | stateTest => decide
  rcases h with ⟨n, rfl⟩ | hv
  · intro c hc
    rcases mem_toList_assertion_int hc with hc | digit
    · exact unmarked_of_any frame c hc
    · unfold marksOperand
      rw [Bool.or_eq_false_iff, beq_eq_false_iff_ne, beq_eq_false_iff_ne]
      constructor
      · rintro rfl
        cases digit
      · rintro rfl
        cases digit
  · exact unmarked_of_any (words format v hv)

theorem Value.assertion_ne_int {format : Format} {v : Value} (h : v ∈ Value.constants)
    (n : Int64) : v.assertion format ≠ Value.assertion format (.int n) := by
  have other : ∀ format, ∀ v ∈ Value.constants,
      (v.assertion format).toList.any (fun c => !numberFrame.contains c && !c.isDigit) := by
    intro format
    cases format with
    | test | stateTest => decide
  obtain ⟨c, hc, hother⟩ := List.any_eq_true.mp (other format v h)
  intro he
  rw [he] at hc
  rcases mem_toList_assertion_int hc with hframe | digit
  · simp [hframe] at hother
  · simp [digit] at hother

theorem int_eq_of_assertion_eq {format : Format} {n n' : Int64}
    (h : Value.assertion format (.int n) = Value.assertion format (.int n')) : n = n' := by
  have number (he : n.toInt.repr = n'.toInt.repr) : n = n' :=
    Int64.toInt_inj.mp (Int.repr_injective he)
  cases format with
  | test => exact number h
  | stateTest =>
      change "BCVal::Int(" ++ n.toInt.repr ++ ")" = "BCVal::Int(" ++ n'.toInt.repr ++ ")" at h
      have hlist := congrArg String.toList h
      simp only [String.toList_append, List.append_assoc] at hlist
      exact number (String.toList_inj.mp
        (List.append_cancel_right (List.append_cancel_left hlist)))

theorem Value.eq_of_assertion_eq {format : Format} {v v' : Value}
    (h : v.IsWord) (h' : v'.IsWord)
    (he : v.assertion format = v'.assertion format) : v = v' := by
  have distinct : ∀ format, ∀ v ∈ Value.constants, ∀ v' ∈ Value.constants,
      v.assertion format = v'.assertion format → v = v' := by
    intro format
    cases format with
    | test | stateTest => decide
  rcases h with ⟨n, rfl⟩ | hv <;> rcases h' with ⟨n', rfl⟩ | hv'
  · rw [int_eq_of_assertion_eq he]
  · exact absurd he.symm (Value.assertion_ne_int hv' n)
  · exact absurd he (Value.assertion_ne_int hv n')
  · exact distinct format v hv v' hv' he

/-- The first mark tells a text from the other operands. -/
theorem assertion_append_ne_string {format : Format} {v : Value}
    (h : v.IsWord) (s : String) (r r' : List Char) :
    (v.assertion format).toList ++ ',' :: r ≠
      (Value.assertion format (.string s)).toList ++ r' := by
  have hbefore : format.beforeText.any marksOperand = false := by
    cases format with
    | test | stateTest => decide
  intro he
  rw [format.toList_assertion_string, List.append_assoc, List.cons_append] at he
  obtain ⟨-, hmark, -⟩ := append_mark_cancel h.marksOperand_eq_false
    (unmarked_of_any hbefore) rfl rfl he
  cases hmark

theorem Value.assertion_cancel {format : Format} {v v' : Value} (hv : v.QuoteFree)
    (hv' : v'.QuoteFree) {r r' : List Char}
    (h : (v.assertion format).toList ++ ',' :: r = (v'.assertion format).toList ++ ',' :: r') :
    v = v' ∧ r = r' := by
  rcases v.word_or_string with hw | ⟨s, rfl⟩ <;> rcases v'.word_or_string with hw' | ⟨s', rfl⟩
  · obtain ⟨htext, -, hrest⟩ :=
      append_mark_cancel hw.marksOperand_eq_false hw'.marksOperand_eq_false rfl rfl h
    exact ⟨Value.eq_of_assertion_eq hw hw' (String.toList_inj.mp htext), hrest⟩
  · exact absurd h (assertion_append_ne_string hw s' r (',' :: r'))
  · exact absurd h.symm (assertion_append_ne_string hw' s r' (',' :: r))
  · rw [format.toList_assertion_string, format.toList_assertion_string] at h
    simp only [List.append_assoc, List.cons_append] at h
    have htext := (List.cons.inj (List.append_cancel_left h)).2
    obtain ⟨hs, hafter⟩ := append_cons_cancel hv hv' htext
    exact ⟨congrArg Value.string (String.toList_inj.mp hs),
      (List.cons.inj (List.append_cancel_left hafter)).2⟩

/-- The characters of the operands, with a comma and a space after each. -/
def listed (format : Format) (expected : List Value) : List Char :=
  expected.flatMap fun v => (v.assertion format).toList ++ [',', ' ']

theorem listed_cons (format : Format) (v : Value) (rest : List Value) :
    listed format (v :: rest) =
      (v.assertion format).toList ++ ',' :: ' ' :: listed format rest := by
  rw [listed, List.flatMap_cons, List.append_assoc]
  rfl

theorem listed_injective {format : Format} {expected expected' : List Value}
    (h : ∀ v ∈ expected, v.QuoteFree) (h' : ∀ v ∈ expected', v.QuoteFree)
    (he : listed format expected = listed format expected') : expected = expected' := by
  induction expected generalizing expected' with
  | nil =>
      cases expected' with
      | nil => rfl
      | cons v' rest' =>
          rw [listed_cons] at he
          exact absurd he.symm (List.append_ne_nil_of_right_ne_nil _ (List.cons_ne_nil _ _))
  | cons v rest ih =>
      cases expected' with
      | nil =>
          rw [listed_cons] at he
          exact absurd he (List.append_ne_nil_of_right_ne_nil _ (List.cons_ne_nil _ _))
      | cons v' rest' =>
          rw [List.forall_mem_cons] at h h'
          rw [listed_cons, listed_cons] at he
          obtain ⟨rfl, hrest⟩ := Value.assertion_cancel h.1 h'.1 he
          rw [ih h.2 h'.2 (List.cons.inj hrest).2]

theorem expectation_cons_cons (format : Format) (v w : Value) (rest : List Value) :
    expectation format (v :: w :: rest) =
      v.assertion format ++ ", " ++ expectation format (w :: rest) :=
  String.intercalate_cons_cons

theorem toList_expectation (format : Format) (v : Value) (rest : List Value) :
    (expectation format (v :: rest)).toList ++ [',', ' '] = listed format (v :: rest) := by
  induction rest generalizing v with
  | nil => rw [expectation, List.map_singleton, String.intercalate_singleton, listed_cons]; rfl
  | cons w rest ih =>
      have hcomma : ", ".toList = [',', ' '] := rfl
      rw [expectation_cons_cons, listed_cons, ← ih w, String.toList_append, String.toList_append,
        hcomma]
      simp only [List.append_assoc, List.cons_append, List.nil_append]

theorem Value.assertion_ne_empty (format : Format) (v : Value) : v.assertion format ≠ "" := by
  have words : ∀ format, ∀ v ∈ Value.constants, v.assertion format ≠ "" := by
    intro format
    cases format with
    | test | stateTest => decide
  rcases v.word_or_string with (⟨n, rfl⟩ | hv) | ⟨s, rfl⟩
  · cases format with
    | test => exact repr_ne_empty n.toInt
    | stateTest =>
        intro he
        have hlist := congrArg String.toList he
        change ("BCVal::Int(" ++ n.toInt.repr ++ ")").toList = [] at hlist
        rw [String.toList_append] at hlist
        exact List.append_ne_nil_of_right_ne_nil _ (List.cons_ne_nil ')' []) hlist
  · exact words format v hv
  · intro he
    have hlist := format.toList_assertion_string s
    rw [he] at hlist
    exact List.append_ne_nil_of_right_ne_nil _ (List.cons_ne_nil _ _) hlist.symm

theorem expectation_cons_ne_empty (format : Format) (v : Value) (rest : List Value) :
    expectation format (v :: rest) ≠ "" := by
  intro he
  have hlist := toList_expectation format v rest
  rw [he, listed_cons] at hlist
  have hlength := congrArg List.length hlist
  have hempty : ("".toList ++ [',', ' ']).length = 2 := rfl
  rw [hempty, List.length_append, List.length_cons, List.length_cons] at hlength
  refine v.assertion_ne_empty format (String.toList_inj.mp (List.length_eq_zero_iff.mp ?_))
  omega

/-- An expectation is cut into operands in one way only. -/
theorem expectation_injective {format : Format} {expected expected' : List Value}
    (h : ∀ v ∈ expected, v.QuoteFree) (h' : ∀ v ∈ expected', v.QuoteFree)
    (he : expectation format expected = expectation format expected') : expected = expected' := by
  cases expected with
  | nil =>
      cases expected' with
      | nil => rfl
      | cons v' rest' => exact absurd he.symm (expectation_cons_ne_empty format v' rest')
  | cons v rest =>
      cases expected' with
      | nil => exact absurd he (expectation_cons_ne_empty format v rest)
      | cons v' rest' =>
          apply listed_injective h h'
          rw [← toList_expectation, ← toList_expectation, he]

/-! ## Whole lines -/

theorem head?_toList_testLine (format : Format) (f : Fragment) (expected : List Value) :
    (testLine format f expected).toList.head? = format.opening.toList.head? := by
  simp only [testLine_eq, String.toList_append, List.append_assoc]
  cases format with
  | test | stateTest => rfl

theorem format_eq_of_testLine_eq {format format' : Format} {f g : Fragment}
    {expected expected' : List Value}
    (h : testLine format f expected = testLine format' g expected') : format = format' := by
  have hhead := head?_toList_testLine format f expected
  rw [h, head?_toList_testLine] at hhead
  have distinct : ∀ format format' : Format,
      format.opening.toList.head? = format'.opening.toList.head? → format = format' := by
    intro format format'
    cases format <;> cases format' <;> decide
  exact distinct format format' hhead.symm

/-- A line tells all that went into it, as far as the source of the program does. -/
theorem testLine_tells_content (format format' : Format) (a b : Branch)
    (expected expected' : List Value) (ha : a.QuoteFree) (hb : b.QuoteFree)
    (hexpected : ∀ v ∈ expected, v.QuoteFree) (hexpected' : ∀ v ∈ expected', v.QuoteFree)
    (h : testLine format a expected = testLine format' b expected') :
    format = format' ∧ a.source = b.source ∧ expected = expected' := by
  obtain rfl : format = format' := format_eq_of_testLine_eq h
  obtain ⟨hsource, htext⟩ := eq_of_testLine_eq ha hb h
  exact ⟨rfl, hsource, expectation_injective hexpected hexpected' htext⟩

/-- Operands whose text looks like what stands around them. -/
def deceptiveOperands : List Value :=
  [.string "\x7d, [1, true", .int 1, .string "1", .bool true, .nil, .string "\x7d#, vec!["]

theorem siblingBranch_line_tells_content :
    siblingBranch.QuoteFree ∧ nestedBranch.QuoteFree ∧
      (∀ v ∈ deceptiveOperands, v.QuoteFree) ∧
      testLine .stateTest siblingBranch deceptiveOperands =
        testLine .stateTest nestedBranch deceptiveOperands ∧
      siblingBranch.source = nestedBranch.source := by
  have hsource : siblingBranch.source = nestedBranch.source := by decide
  have hprogram : Fragment.program siblingBranch = Fragment.program nestedBranch := by
    rw [Branch.program_eq, Branch.program_eq, hsource]
  have hline := testLine_congr .stateTest hprogram deceptiveOperands
  have hfree : ∀ v ∈ deceptiveOperands, v.QuoteFree := by decide
  exact ⟨by decide, by decide, hfree, hline, (testLine_tells_content .stateTest .stateTest
    siblingBranch nestedBranch _ _ (by decide) (by decide) hfree hfree hline).2.1⟩

end BranchCases
