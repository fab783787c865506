import BlockScript.Fault.File

/-!
# Faults of the text

Why a source file cannot be cut into tokens.
-/

namespace BlockScript

/-- Why a source file cannot be cut into tokens. -/
inductive ScanFault where
  /-- A line cannot be read. -/
  | unreadableLine (line : Nat) (fault : FileFault)
  /-- An operator of two equal characters has only one of them. -/
  | halfOperator (character : Char)
  | namelessDirective
  | unterminatedText
  | unterminatedComment
  /-- An indentation character differs from the first one in the file. -/
  | mixedIndentation
  | unexpectedCharacter (character : Char)
  deriving DecidableEq

/-- The wording of a fault. -/
def ScanFault.message : ScanFault → String
  | .unreadableLine line fault => s!"Could not read line {line}: " ++ fault.message
  | .halfOperator c => s!"Expected '{c}{c}', got a single '{c}'"
  | .namelessDirective => "Expected a directive name after '#'"
  | .unterminatedText => "Unterminated string literal"
  | .unterminatedComment => "Unterminated block comment"
  | .mixedIndentation => "Inconsistent use of tabs and spaces in indentation"
  | .unexpectedCharacter c => s!"Unexpected character: '{c}'"

end BlockScript
