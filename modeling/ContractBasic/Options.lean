/-
What can be chosen when a text is read and when a program is written.
-/

namespace ContractBasic

/-- Choices for reading. -/
structure ParseOptions where
  /-- Keep lines that hold neither a statement nor a comment. -/
  keepEmptyLines : Bool
  /-- Check that jumps lead to lines of their function. -/
  checkTargets : Bool
deriving DecidableEq, Repr

/-- Choices for writing. -/
structure GenerateOptions where
  /-- Give private names short spellings. -/
  minify : Bool
  /-- Write comments and empty lines. -/
  comments : Bool
  /-- Leave out blanks that are not needed. -/
  compact : Bool
deriving DecidableEq, Repr

/-- Nothing beyond the ordinary. -/
def ParseOptions.default : ParseOptions := ⟨false, false⟩

/-- Nothing beyond the ordinary. -/
def GenerateOptions.default : GenerateOptions := ⟨false, false, false⟩

end ContractBasic
