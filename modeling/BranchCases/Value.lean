/-
Literal values of the stack language and the test that a condition makes of them.
-/
namespace BranchCases

/-- A literal value. `nil` is the absent value. -/
inductive Value where
  | int (n : Int64)
  | string (s : String)
  | bool (b : Bool)
  | nil
  deriving DecidableEq

/-- Every value but false and `nil` lets a condition pass; zero and the empty text pass. -/
def Value.isTruthy : Value → Bool
  | .bool b => b
  | .nil => false
  | .int _ | .string _ => true

instance : Coe Int64 Value := ⟨.int⟩
instance : Coe Bool Value := ⟨.bool⟩
instance : Coe String Value := ⟨.string⟩

end BranchCases
