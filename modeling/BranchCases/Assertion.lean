import BranchCases.Flow
import BranchCases.Named

/-
Test lines: a program beside the operands that it is expected to leave.
-/
namespace BranchCases

/-- The notation of a test line. -/
inductive Format where
  /-- Written `TEST(main { … }, [1, true])`. -/
  | test
  /-- Written `state_test!(r#"main { … }"#, vec![BCVal::Int(1)]);`. -/
  | stateTest
  deriving DecidableEq

instance : Named Format where
  all := [.test, .stateTest]
  name
    | .test => "test"
    | .stateTest => "rust"

instance : Inhabited Format := ⟨.test⟩

/-- The word of a truth value in a test line, whatever its notation. -/
def boolWord : Bool → String
  | true => "true"
  | false => "false"

/-- One expected operand. Text is copied as it is. -/
def Value.assertion : Format → Value → String
  | .test, .int n => n.toInt.repr
  | .test, .string s => "\"" ++ s ++ "\""
  | .test, .bool b => boolWord b
  | .test, .nil => "nil"
  | .stateTest, .int n => "BCVal::Int(" ++ n.toInt.repr ++ ")"
  | .stateTest, .string s => "BCVal::String(String::from(r#\"" ++ s ++ "\"#))"
  | .stateTest, .bool b => "BCVal::Bool(" ++ boolWord b ++ ")"
  | .stateTest, .nil => "BCVal::Nil"

/-- The expected operands, bottom first. -/
def expectation (format : Format) (expected : List Value) : String :=
  ", ".intercalate (expected.map (Value.assertion format))

/-- A test line for a program and the operands expected of it; nothing is run. -/
def testLine (format : Format) (fragment : Fragment) (expected : List Value) : String :=
  match format with
  | .test => "TEST(" ++ fragment.program ++ ", [" ++ expectation format expected ++ "])"
  | .stateTest =>
    "state_test!(r#\"" ++ fragment.program ++ "\"#, vec![" ++ expectation format expected ++ "]);"

/-- The test line of a branch, which expects what the branch leaves. -/
def Branch.testCase (format : Format) (b : Branch) : Except FlowError String :=
  b.flow.map (testLine format b)

end BranchCases
