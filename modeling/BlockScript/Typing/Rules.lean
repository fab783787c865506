import BlockScript.Catalog
import BlockScript.Definitions
import BlockScript.Diagnostic

/-!
# Typing rules

The types of operators and casts, and which values a variable or property takes. Numbers widen to
texts in assignments; everything else must match exactly.
-/

namespace BlockScript

namespace DataType

/-- Whether a type is number or text. -/
def isScalar : DataType → Bool
  | .number | .string => true
  | _ => false

/-- Whether a variable of type `target` takes a value of type `found`. -/
def assignable (target found : DataType) : Bool :=
  target == found || (target == .string && found == .number)

/-- Whether an assignment to a variable of type `target` takes a value of type `found`. -/
def accepts (target : DataType) (op : AssignOp) (found : DataType) : Bool :=
  match op with
  | .set => assignable target found
  | .add => match target with
    | .string => found.isScalar
    | .number => found == .number
    | _ => false
  | _ => target == .number && found == .number

/-- Whether a value of type `source` can be cast to type `target`. -/
def castable (source target : DataType) : Bool :=
  match source, target with
  | .boolean, _ | _, .boolean => false
  | .numberList, target | .stringList, target => target == .string
  | .number, .number | .number, .string | .string, .number | .string, .string => true
  | .string, .image | .image, .image | .image, .string => true
  | _, _ => false

end DataType

/-- The type of a binary operation, if its operands fit. -/
def BinaryOp.resultType? (op : BinaryOp) (left right : DataType) : Option DataType :=
  match op with
  | .add =>
    if left.isScalar && right.isScalar then
      some (if left = .string || right = .string then .string else .number)
    else none
  | .eq => if left.isScalar && right.isScalar then some .boolean else none
  | .lt | .gt => if left = .number && right = .number then some .boolean else none
  | .and | .or => if left = .boolean && right = .boolean then some .boolean else none
  | .sub | .mul | .div | .mod => if left = .number && right = .number then some .number else none

/-- What is wrong with an assignment, by the types alone. -/
def assignFault? (name : String) (type : DataType) (op : AssignOp) (found : DataType) :
    Option AnalysisFault :=
  if type.accepts op found then none
  else if op = .set then some (.assignmentMismatch name type found)
  else some (.combinationMismatch op name type found)

/-- What is wrong with an argument whose value is known and that must be one of some options. -/
def optionFault? (d : Definitions) (callee : String) (spec : ParamSpec) (arg : Expr) :
    Option Diagnostic :=
  match spec.options, d.staticValue? arg with
  | some options, some (.string value) =>
    if options.contains value then none
    else some (.analysis (.invalidOption value spec.name callee options) arg.span)
  | _, _ => none

/-- What is wrong with a call that no signature fits. -/
def Builtin.overloadFault (b : Builtin) (types : List DataType) : AnalysisFault :=
  .noOverload b.name types b.candidates

end BlockScript
