import BranchCases.Proofs.Survivors
import BranchCases.Proofs.TestLines

/-
Raw texts in a line of the state-test notation. The program and each expected string stand between
an opening and a stop, unescaped, so a stop inside their characters would end them early. Main
result: none of them ends early exactly if no string literal of the branch begins with a hash or has
a quote before a hash in it, run or not.
-/
namespace BranchCases

/-- The two characters that end a raw text. -/
def rawStop : List Char :=
  ['"', '#']

structure RawText where
  before : String
  content : String
  after : String

def RawText.line (raw : RawText) : String :=
  raw.before ++ "r#\"" ++ raw.content ++ "\"#" ++ raw.after

/-- From the opening on, no stop comes before the one that was written. -/
def RawText.Closes (raw : RawText) : Prop :=
  ∀ front back, raw.content.toList ++ rawStop ++ raw.after.toList = front ++ rawStop ++ back →
    raw.content.length ≤ front.length

/-- The raw texts of a test line: the program, and each string among the expected operands. -/
inductive Branch.WritesRaw (b : Branch) (expected : List Value) : RawText → Prop where
  | program : WritesRaw b expected {
      before := "state_test!("
      content := Fragment.program b
      after := ", vec![" ++ expectation .stateTest expected ++ "]);" }
  | operand {earlier later : List Value} {s : String}
      (hexpected : expected = earlier ++ .string s :: later) : WritesRaw b expected {
      before := "state_test!(r#\"" ++ Fragment.program b ++ "\"#, vec![" ++
        String.join (earlier.map fun v => v.assertion .stateTest ++ ", ") ++
        "BCVal::String(String::from("
      content := s
      after := "))" ++ String.join (later.map fun v => ", " ++ v.assertion .stateTest) ++ "]);" }

/-- A literal whose text, written between quotes, has no stop in it. -/
def Value.StopFree : Value → Prop
  | .string s => s.toList.head? ≠ some '#' ∧ ¬ rawStop <:+: s.toList
  | .int _ | .bool _ | .nil => True

instance : DecidablePred Value.StopFree
  | .string s => inferInstanceAs (Decidable (s.toList.head? ≠ some '#' ∧ ¬ rawStop <:+: s.toList))
  | .int _ | .bool _ | .nil => isTrue trivial

/-! ## Stops inside a text -/

theorem infix_append_cons_iff {part first rest : List Char} {c : Char} (hc : c ∉ part) :
    part <:+: first ++ c :: rest ↔ part <:+: first ∨ part <:+: rest := by
  constructor
  · intro h
    rcases List.infix_append_iff.mp h with hfirst | hrest | ⟨front, back, rfl, hfront, hback⟩
    · exact Or.inl hfirst
    · rcases List.infix_cons_iff.mp hrest with hhead | htail
      · cases part with
        | nil => exact Or.inl (List.nil_infix)
        | cons d part =>
            rw [(List.cons_prefix_cons.mp hhead).1] at hc
            exact absurd List.mem_cons_self hc
      · exact Or.inr htail
    · cases back with
      | nil =>
          rw [List.append_nil]
          exact Or.inl hfront.isInfix
      | cons d back =>
          rw [(List.cons_prefix_cons.mp hback).1] at hc
          exact absurd (List.mem_append_right front List.mem_cons_self) hc
  · rintro (hfirst | hrest)
    · exact hfirst.trans (List.prefix_append _ _).isInfix
    · exact hrest.trans ((List.suffix_cons c rest).isInfix.trans
        (List.suffix_append first _).isInfix)

/-- A stop cannot begin inside the content and end behind it. -/
theorem RawText.closes_iff (raw : RawText) :
    raw.Closes ↔ ¬ rawStop <:+: raw.content.toList := by
  constructor
  · rintro h ⟨front, back, hcontent⟩
    have hle := h front (back ++ rawStop ++ raw.after.toList) (by simp [← hcontent])
    have hlength := congrArg List.length hcontent
    have hstop : rawStop.length = 2 := rfl
    simp only [List.length_append, String.length_toList] at hlength
    omega
  · intro h front back hsplit
    rw [List.append_assoc, List.append_assoc] at hsplit
    rcases List.append_eq_append_iff.mp hsplit with ⟨more, rfl, -⟩ | ⟨more, hcontent, hmore⟩
    · rw [List.length_append, String.length_toList]
      exact Nat.le_add_right _ _
    · -- The stop would have to stand in `more`, or to begin with the quote that closes the text.
      match more with
      | [] =>
          rw [List.append_nil] at hcontent
          have hlength : raw.content.length = front.length := by
            rw [← hcontent, String.length_toList]
          exact Nat.le_of_eq hlength
      | [c] => simp [rawStop] at hmore
      | c :: d :: more =>
          obtain ⟨rfl, hrest⟩ := List.cons.inj hmore
          obtain ⟨rfl, -⟩ := List.cons.inj hrest
          have hinside : front ++ rawStop ++ more = raw.content.toList :=
            (List.append_assoc front rawStop more).trans hcontent.symm
          exact absurd ⟨front, more, hinside⟩ h

theorem rawStop_infix_quoted {text : List Char} :
    rawStop <:+: '"' :: (text ++ ['"']) ↔ text.head? = some '#' ∨ rawStop <:+: text := by
  have hlast : ¬ rawStop <:+ text ++ ['"'] := by
    intro h
    rcases List.suffix_concat_iff.mp h with hnil | ⟨front, hfront, -⟩
    · cases hnil
    · have hend := congrArg List.getLast? hfront
      simp [rawStop] at hend
  have hfirst : rawStop <+: '"' :: (text ++ ['"']) ↔ text.head? = some '#' := by
    cases text with
    | nil => decide
    | cons c text => simp [rawStop, eq_comm]
  rw [List.infix_cons_iff, hfirst, List.infix_concat_iff, or_iff_right hlast]

theorem Value.stopFree_string {s : String} :
    Value.StopFree (.string s) ↔ ¬ rawStop <:+: (Token.literal (.string s)).text.toList := by
  rw [Token.toList_text_string, rawStop_infix_quoted, not_or]
  rfl

theorem Token.not_rawStop_infix {t : Token} (h : t.Plain) : ¬ rawStop <:+: t.text.toList := by
  intro hstop
  exact (Token.not_mem_text h).2 (hstop.subset List.mem_cons_self)

/-! ## Stops in a program -/

theorem not_rawStop_infix_spelled {tokens : List Token} :
    ¬ rawStop <:+: spelled tokens ↔ ∀ t ∈ tokens, ¬ rawStop <:+: t.text.toList := by
  induction tokens with
  | nil => simp [spelled, rawStop]
  | cons t rest ih =>
      rw [spelled_cons, infix_append_cons_iff (by decide), not_or, ih, List.forall_mem_cons]

/-- The words that are no strings have no quote, and between words stands a space. -/
theorem Branch.not_rawStop_infix_tokens (b : Branch) :
    (∀ t ∈ tokensAll b.items, ¬ rawStop <:+: t.text.toList) ↔ ∀ v ∈ b.literals, v.StopFree := by
  rw [← b.literals_tokens]
  constructor
  · intro h v hv
    obtain ⟨t, ht, hliteral⟩ := List.mem_filterMap.mp hv
    cases t with
    | literal w =>
        cases hliteral
        cases v with
        | string s => exact Value.stopFree_string.mpr (h _ ht)
        | int n | bool b | nil => trivial
    | br | elbr | el | opening | closing => cases hliteral
  · intro h t ht
    rcases t.plain_or_string with hp | ⟨s, rfl⟩
    · exact Token.not_rawStop_infix hp
    · exact Value.stopFree_string.mp (h _ (List.mem_filterMap.mpr ⟨_, ht, rfl⟩))

theorem Branch.not_rawStop_infix_program (b : Branch) :
    ¬ rawStop <:+: (Fragment.program b).toList ↔ ∀ v ∈ b.literals, v.StopFree := by
  have hmain : "main \x7b ".toList = "main \x7b".toList ++ [' '] := rfl
  have hopening : ¬ rawStop <:+: "main \x7b".toList := by decide
  have hprogram := b.toList_program []
  rw [List.append_nil, hmain, List.append_assoc, List.singleton_append] at hprogram
  rw [hprogram, infix_append_cons_iff (by decide), or_iff_right hopening,
    infix_append_cons_iff (by decide), or_iff_left (by decide), not_rawStop_infix_spelled,
    b.not_rawStop_infix_tokens]

/-! ## Raw texts in a line -/

theorem expectation_cons (format : Format) (v : Value) (later : List Value) :
    expectation format (v :: later) =
      v.assertion format ++ String.join (later.map fun w => ", " ++ w.assertion format) := by
  induction later generalizing v with
  | nil =>
      rw [expectation, List.map_singleton, String.intercalate_singleton, List.map_nil,
        String.join_nil, String.append_empty]
  | cons w later ih =>
      rw [expectation_cons_cons, ih w, List.map_cons, String.join_cons]
      simp only [String.append_assoc]

theorem expectation_append_cons (format : Format) (earlier : List Value) (v : Value)
    (later : List Value) : expectation format (earlier ++ v :: later) =
      String.join (earlier.map fun w => w.assertion format ++ ", ") ++
        expectation format (v :: later) := by
  induction earlier with
  | nil => rw [List.nil_append, List.map_nil, String.join_nil, String.empty_append]
  | cons w earlier ih =>
      have hcons : expectation format (w :: (earlier ++ v :: later)) =
          w.assertion format ++ ", " ++ expectation format (earlier ++ v :: later) := by
        cases earlier <;> exact expectation_cons_cons format ..
      rw [List.cons_append, hcons, ih, List.map_cons, String.join_cons]
      simp only [String.append_assoc]

theorem Value.assertion_string (s : String) :
    Value.assertion .stateTest (.string s) =
      "BCVal::String(String::from(" ++ ("r#\"" ++ (s ++ ("\"#" ++ "))"))) := by
  have hbefore : "BCVal::String(String::from(r#\"" =
      "BCVal::String(String::from(" ++ "r#\"" := by simp
  have hafter : "\"#))" = "\"#" ++ "))" := by simp
  change "BCVal::String(String::from(r#\"" ++ s ++ "\"#))" = _
  rw [hbefore, hafter, String.append_assoc, String.append_assoc]

theorem Branch.WritesRaw.line_eq {b : Branch} {expected : List Value} {raw : RawText}
    (h : b.WritesRaw expected raw) : raw.line = testLine .stateTest b expected := by
  have hopening : "state_test!(r#\"" = "state_test!(" ++ "r#\"" := by simp
  have hmiddle : "\"#, vec![" = "\"#" ++ ", vec![" := by simp
  rw [testLine_eq, RawText.line]
  simp only [Format.opening, Format.middle, Format.ending]
  cases h with
  | program =>
      rw [hopening, hmiddle]
      simp only [String.append_assoc]
  | @operand earlier later s hexpected =>
      rw [hexpected, expectation_append_cons, expectation_cons, Value.assertion_string, hopening,
        hmiddle]
      simp only [String.append_assoc]

theorem Branch.WritesRaw.closes {b : Branch} {left : Stack} {raw : RawText}
    (h : b.WritesRaw left raw) (hflow : b.flow = .ok left)
    (hfree : ∀ v ∈ b.literals, v.StopFree) : raw.Closes := by
  rw [RawText.closes_iff]
  cases h with
  | program => exact b.not_rawStop_infix_program.mpr hfree
  | @operand earlier later s hexpected =>
      -- A run makes no text of its own: what it leaves stands in the source.
      have hs : Value.string s ∈ left := by
        rw [hexpected]
        exact List.mem_append_right earlier List.mem_cons_self
      exact (hfree _ ((b.isTraced.flow hflow).1.subset hs)).2

/-- The raw texts of a test line end where they were meant to, all of them, exactly if no string
literal of the branch, taken or not, begins with a hash or has a quote before a hash in it. -/
theorem Branch.raw_texts_close_iff (b : Branch) (left : Stack) (h : b.flow = .ok left) :
    ∃ line, b.testCase .stateTest = .ok line ∧
      (∀ raw, b.WritesRaw left raw → raw.line = line) ∧
      ((∀ raw, b.WritesRaw left raw → raw.Closes) ↔
        ∀ s, .string s ∈ b.literals →
          s.toList.head? ≠ some '#' ∧ ¬ ['"', '#'] <:+: s.toList) := by
  refine ⟨testLine .stateTest b left, ?_, fun raw hraw => hraw.line_eq, ?_, ?_⟩
  · rw [Branch.testCase, h]
    rfl
  · intro hclose s hs
    have hprogram := (RawText.closes_iff _).mp (hclose _ .program)
    exact b.not_rawStop_infix_program.mp hprogram (.string s) hs
  · intro hfree raw hraw
    refine hraw.closes h ?_
    intro v hv
    cases v with
    | string s => exact hfree s hv
    | int n | bool b | nil => trivial

/-- A hash to begin with, in a body that is not taken. -/
def skippedHash : Branch :=
  { cond := pushes [.nil], body := pushes [.string "#"], post := pushes [.string "\""] }

/-- Quotes and hashes in no order that ends a text. -/
def heldApart : Branch :=
  { skippedHash with body := pushes [.string "a#\""] }

/-- What is skipped ends the program early, though both branches leave the same string. -/
theorem raw_texts_skippedHash :
    skippedHash.flow = .ok [.string "\""] ∧ heldApart.flow = .ok [.string "\""] ∧
      (¬ ∀ raw, skippedHash.WritesRaw [.string "\""] raw → raw.Closes) ∧
      ∀ raw, heldApart.WritesRaw [.string "\""] raw → raw.Closes := by
  have hskipped : skippedHash.flow = .ok [.string "\""] := rfl
  have happart : heldApart.flow = .ok [.string "\""] := rfl
  refine ⟨hskipped, happart, ?_, ?_⟩
  · obtain ⟨_, -, -, hiff⟩ := Branch.raw_texts_close_iff skippedHash _ hskipped
    intro hclose
    exact (hiff.mp hclose "#" (by decide)).1 rfl
  · obtain ⟨_, -, -, hiff⟩ := Branch.raw_texts_close_iff heldApart _ happart
    refine hiff.mpr ?_
    intro s hs
    have hfree : ∀ v ∈ heldApart.literals, v.StopFree := by decide
    exact hfree _ hs

end BranchCases
