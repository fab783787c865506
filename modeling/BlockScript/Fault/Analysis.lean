import BlockScript.Fault.File
import BlockScript.Operator
import BlockScript.Value

/-!
# Faults of meaning

What can be wrong with the names, types and constant values of a program that is well formed.
-/

namespace BlockScript

/-- The kinds of declarations, as warnings name them. -/
inductive DeclarationKind where
  | variable
  | list
  | constant
  | function
  | event
  deriving DecidableEq

/-- The name of a kind of declaration. -/
def DeclarationKind.describe : DeclarationKind → String
  | .variable => "Variable"
  | .list => "List"
  | .constant => "Constant"
  | .function => "Function"
  | .event => "Event"

/-- Why a picture cannot be loaded. -/
structure PictureFault where
  /-- The path of the picture. -/
  path : String
  /-- What went wrong there. -/
  fault : FileFault
  deriving DecidableEq

/-- The wording of the fault. -/
def PictureFault.message (f : PictureFault) : String :=
  "Could not load image '" ++ f.path ++ "': " ++ f.fault.message

/-- What can be wrong with the meaning of a program. -/
inductive AnalysisFault where
  /- Declarations. -/
  | listParameter (name : String)
  | duplicateParameter (name : String)
  | shadowsParameter (name owner : String)
  | redeclared (name : String) (line : Nat)
  | booleanVariable (name : String)
  | untypedVariable (name : String)
  | missingInitializer (name : String) (type : DataType)
  | listInVariable (name : String)
  | initializerMismatch (name : String) (type found : DataType)
  | listForScalar (name : String) (type : DataType)
  | listNeedsLiteral (name : String)
  | elementMismatch (expected found : DataType)
  | elementUnsupported (found : DataType)
  | untypedList (name : String)
  | listInConstant (name : String)
  | constantMismatch (name : String) (type found : DataType)
  | nestedItem
  /- Events. -/
  | unknownEvent (name : String)
  | missingEventParameter (name parameter : String)
  | extraEventParameter (name : String)
  | eventParameterMismatch (name : String) (type : DataType) (parameter : String) (found : DataType)
  /- Statements. -/
  | conditionMismatch (found : DataType)
  | countMismatch (found : DataType)
  | functionArguments (name : String) (expected found : List DataType)
  | eventArguments (name : String)
  | valueIgnored (name : String)
  | notCallable (name : String)
  | unknownFunction (name : String)
  | assignedParameter (name : String)
  | assignedList (name : String)
  | assignedConstant (name : String)
  | unsupportedAssignment (name : String) (op : AssignOp)
  | readOnly (name : String)
  | undefinedVariable (name : String)
  | assignmentMismatch (name : String) (type found : DataType)
  | combinationMismatch (op : AssignOp) (name : String) (type found : DataType)
  /- Expressions. -/
  | looseList
  | negationMismatch (found : DataType)
  | operandMismatch (op : BinaryOp) (left right : DataType)
  | invalidCast (source target : DataType)
  | ownInitializer (name : String)
  | usedBeforeDeclaration (name : String)
  | functionAsValue (name : String)
  | eventAsValue (name : String)
  | undefinedName (name : String)
  | functionReturnsNothing (name : String)
  | returnsNothing (name : String)
  | noOverload (name : String) (given : List DataType) (candidates : List String)
  | argumentNotList (parameter callee : String)
  | invalidOption (value parameter callee : String) (options : List String)
  /- Compile-time values. -/
  | constantUnknown (name : String)
  | eventParameterUnknown (name : String)
  | elementUnknown
  | argumentUnknown (parameter callee : String)
  | divisionByZero
  | moduloByZero
  | picturePathUnknown
  | notANumber (text : String)
  | pictureUnavailable (fault : PictureFault)
  /- Warnings. -/
  | unreachable
  | unused (kind : DeclarationKind) (name : String)
  deriving DecidableEq

/-- The operands that an operator accepts, in words. -/
def operandsOf : BinaryOp → String
  | .add | .eq => "numbers or strings"
  | .and | .or => "booleans"
  | _ => "numbers"

/-- The wording of a fault. -/
def AnalysisFault.message : AnalysisFault → String
  | .listParameter name => s!"Parameter '{name}' cannot be a list"
  | .duplicateParameter name => s!"Duplicate parameter '{name}'"
  | .shadowsParameter name owner => s!"'{name}' is already declared as a parameter of '{owner}'"
  | .redeclared name line => s!"'{name}' is already declared on line {line}"
  | .booleanVariable name =>
    s!"Variable '{name}' cannot hold a boolean; only events, conditions and parameters can"
  | .untypedVariable name =>
    s!"Cannot infer the type of '{name}'; add a type or an initializer"
  | .missingInitializer name type => s!"Variable '{name}' of type {type} needs an initializer"
  | .listInVariable name =>
    s!"Variable '{name}' must be initialized with a list literal to hold a list"
  | .initializerMismatch name type found =>
    s!"Cannot initialize '{name}' of type {type} with a {found}"
  | .listForScalar name type => s!"'{name}' is declared as {type} but initialized with a list"
  | .listNeedsLiteral name => s!"List '{name}' must be initialized with a list literal"
  | .elementMismatch expected found => s!"List element must be {expected}, got {found}"
  | .elementUnsupported found => s!"List elements must be numbers or strings, got {found}"
  | .untypedList name =>
    s!"Cannot infer the type of empty list '{name}'; declare it as number[] or string[]"
  | .listInConstant name => s!"Constant '{name}' cannot hold a list"
  | .constantMismatch name type found =>
    s!"Constant '{name}' is declared as {type} but its value is a {found}"
  | .nestedItem => "Events and functions can only be declared at top level"
  | .unknownEvent name => s!"Unknown event '@{name}'"
  | .missingEventParameter name parameter => s!"Event '@{name}' needs a {parameter} parameter"
  | .extraEventParameter name => s!"Event '@{name}' does not take a parameter"
  | .eventParameterMismatch name type parameter found =>
    s!"Event '@{name}' expects a {type} {parameter}, got {found}"
  | .conditionMismatch found => s!"Condition must be a boolean, got {found}"
  | .countMismatch found => s!"Loop count must be a number, got {found}"
  | .functionArguments name expected found =>
    s!"Function '{name}' expects " ++ describeTypes expected ++ ", got " ++ describeTypes found
  | .eventArguments name => s!"Event '{name}' takes no arguments"
  | .valueIgnored name => s!"'{name}' returns a value and cannot be used as a statement"
  | .notCallable name => s!"'{name}' is a builtin but cannot be called"
  | .unknownFunction name => s!"Unknown function '{name}'"
  | .assignedParameter name => s!"Cannot assign to parameter '{name}'"
  | .assignedList name => s!"Cannot assign to list '{name}'; use list.add or list.replace"
  | .assignedConstant name => s!"Cannot assign to constant '{name}'"
  | .unsupportedAssignment name op => s!"'{name}' does not support '" ++ op.spelling ++ "'"
  | .readOnly name => s!"'{name}' is read-only"
  | .undefinedVariable name => s!"Undefined variable '{name}'"
  | .assignmentMismatch name type found => s!"Cannot assign a {found} to '{name}' of type {type}"
  | .combinationMismatch op name type found =>
    "Operator '" ++ op.spelling ++ s!"' cannot combine '{name}' ({type}) with a {found}"
  | .looseList => "List literals are only allowed in list declarations"
  | .negationMismatch found => s!"Operator 'not' expects a boolean, got {found}"
  | .operandMismatch op left right =>
    "Operator '" ++ op.spelling ++ "' expects " ++ operandsOf op ++ s!", got {left} and {right}"
  | .invalidCast source target => s!"Cannot cast {source} to {target}"
  | .ownInitializer name => s!"Cannot use variable '{name}' in its own initializer"
  | .usedBeforeDeclaration name => s!"'{name}' is used before its declaration"
  | .functionAsValue name => s!"'{name}' is a function; call it as a statement with {name}(...)"
  | .eventAsValue name => s!"'{name}' is an event; broadcast it with {name}()"
  | .undefinedName name => s!"Undefined name '{name}'"
  | .functionReturnsNothing name => s!"Function '{name}' does not return a value"
  | .returnsNothing name => s!"'{name}' does not return a value"
  | .noOverload name given candidates =>
    s!"No overload of '{name}' accepts " ++ describeTypes given ++ "; candidates are:\n" ++
      "\n".intercalate (candidates.map ("  " ++ ·))
  | .argumentNotList parameter callee => s!"Argument '{parameter}' of {callee} must name a list"
  | .invalidOption value parameter callee options =>
    s!"'{value}' is not a valid {parameter} for {callee}; expected one of: " ++
      ", ".intercalate options
  | .constantUnknown name => s!"Constant '{name}' must have a compile-time value"
  | .eventParameterUnknown name => s!"The parameter of '@{name}' must be a compile-time value"
  | .elementUnknown => "List elements must be compile-time values"
  | .argumentUnknown parameter callee =>
    s!"Argument '{parameter}' of {callee} must be a compile-time value"
  | .divisionByZero => "Division by zero"
  | .moduloByZero => "Modulo by zero"
  | .picturePathUnknown => "image() needs a literal path known at compile time"
  | .notANumber text => s!"Cannot convert '{text}' to a number"
  | .pictureUnavailable fault => fault.message
  | .unreachable => "Unreachable code"
  | .unused kind name => kind.describe ++ s!" '{name}' is never used"

end BlockScript
