import BlockScript.Value

/-!
# Faults of syntax

What the parser expected, what it found instead, and the faults of indentation and of statements
out of place.
-/

namespace BlockScript

/-- What stands where something else was expected. -/
inductive Found where
  | lineEnd
  | inputEnd
  | lexeme (text : String)
  deriving DecidableEq

/-- The wording for what was found. -/
def Found.describe : Found → String
  | .lineEnd => "end of line"
  | .inputEnd => "end of input"
  | .lexeme text => s!"'{text}'"

/-- What the parser can expect. -/
inductive Expectation where
  | handlerName
  | eventName
  | variableName
  | constantName
  | constantValue
  | functionName
  | parameterStart
  | parameterName
  | parameterType
  | parameterEnd
  | typeName
  | listTypeEnd
  | bodyStart
  | lineEnd
  | name
  | memberName
  | callOrAssignment (target : String)
  | argumentEnd
  | groupEnd
  | listEnd
  | castStart (target : DataType)
  | castEnd
  | statement
  | expression
  deriving DecidableEq

/-- The wording for what was expected. -/
def Expectation.describe : Expectation → String
  | .handlerName => "an event name after '@'"
  | .eventName => "an event name"
  | .variableName => "a variable name"
  | .constantName => "a constant name"
  | .constantValue => "'=' after constant name"
  | .functionName => "a function name"
  | .parameterStart => "'(' after function name"
  | .parameterName => "a parameter name"
  | .parameterType => "':' after parameter name"
  | .parameterEnd => "')' after parameters"
  | .typeName => "a type name"
  | .listTypeEnd => "']' in list type"
  | .bodyStart => "':'"
  | .lineEnd => "end of line"
  | .name => "a name"
  | .memberName => "a name after '.'"
  | .callOrAssignment target => s!"'(' or an assignment after '{target}'"
  | .argumentEnd => "')' after arguments"
  | .groupEnd => "')'"
  | .listEnd => "']' after list items"
  | .castStart target => s!"'(' after '{target}' in a cast"
  | .castEnd => "')' after cast operand"
  | .statement => "a statement"
  | .expression => "an expression"

/-- A fault of syntax. -/
inductive SyntaxFault where
  | expected (what : Expectation) (found : Found)
  /-- A line that is no event and no declaration stands at the outermost level. -/
  | notAnItem (found : Found)
  /-- A line at the outermost level is indented. -/
  | indentedItem
  /-- A line of a body is indented differently from the first one. -/
  | unevenIndentation (columns found : Nat)
  | missingBody
  | nestedItem
  /-- A branch has no condition before it. -/
  | looseBranch (found : Found)
  | unsupportedList (element : DataType)
  deriving DecidableEq

/-- The wording of a fault. -/
def SyntaxFault.message : SyntaxFault → String
  | .expected what found => "Expected " ++ what.describe ++ ", got " ++ found.describe
  | .notAnItem found =>
    "Only events and var/const/func declarations are allowed at top level, got " ++ found.describe
  | .indentedItem => "Unexpected indentation"
  | .unevenIndentation columns found =>
    s!"Unexpected indentation: expected {columns} columns, got {found}"
  | .missingBody => "Expected an indented block after ':'"
  | .nestedItem => "Events and functions can only be declared at top level"
  | .looseBranch found => found.describe ++ " without a matching 'if'"
  | .unsupportedList element => s!"Lists of {element} are not supported"

end BlockScript
