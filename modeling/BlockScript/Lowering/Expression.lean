import BlockScript.Catalog
import BlockScript.Lowering.Assembly

/-!
# Lowering of expressions

An expression becomes the content of an input. Numbers and texts are values, `false` is an empty
input, and all else is a block. Parentheses and casts that change nothing have no block of their
own.
-/

namespace BlockScript

/-- What lowering looks up. -/
structure LowerContext where
  /-- What the program declares. -/
  defs : Definitions
  /-- The types of expressions. -/
  types : TypeTable
  /-- The catalog. -/
  catalog : Catalog
  /-- The function around. -/
  function : Option Function := none

/-- The steps that set the fixed fields of a signature. -/
def Signature.fieldSteps (s : Signature) : List Step :=
  s.fields.map fun (name, value) => .text name value

/-- The block that reports a parameter. -/
def DataType.reporterOpcode (type : DataType) : String :=
  if type = .boolean then "argument_reporter_boolean" else "argument_reporter_string_number"

/-- The block of an operator and the inputs of its operands. A sum of type text joins. -/
def BinaryOp.layout (op : BinaryOp) (result : DataType) : String × String × String :=
  match op with
  | .add =>
    if result = .string then ("operator_join", "STRING1", "STRING2")
    else ("operator_add", "NUM1", "NUM2")
  | .sub => ("operator_subtract", "NUM1", "NUM2")
  | .mul => ("operator_multiply", "NUM1", "NUM2")
  | .div => ("operator_divide", "NUM1", "NUM2")
  | .mod => ("operator_mod", "NUM1", "NUM2")
  | .lt => ("operator_lt", "OPERAND1", "OPERAND2")
  | .gt => ("operator_gt", "OPERAND1", "OPERAND2")
  | .eq => ("operator_equals", "OPERAND1", "OPERAND2")
  | .and => ("operator_and", "OPERAND1", "OPERAND2")
  | .or => ("operator_or", "OPERAND1", "OPERAND2")

/-- The operation that converts while the robot runs, and the neutral operand it needs: a text
becomes a number by adding zero, and a number or list becomes a text by joining nothing to it. -/
def castLayout? (source target : DataType) : Option (BinaryOp × DataType × Value) :=
  match source, target with
  | .string, .number => some (.add, .number, .number 0.0)
  | .number, .string | .numberList, .string | .stringList, .string =>
    some (.add, .string, .string "")
  | _, _ => none

/-- The block that reports a variable. -/
def Variable.reporter (v : Variable) : Content :=
  .ofSteps "data_variable" [.entity "VARIABLE" v.name v.id]

/-- The block that reports a list. -/
def ListVariable.reporter (l : ListVariable) : Content :=
  .ofSteps "data_listcontents" [.entity "LIST" l.name l.id]

/-- The block that reports a readable property. -/
def Signature.reporter (s : Signature) : Content := .ofSteps s.opcode s.fieldSteps

namespace LowerContext

/-- The parameter of the function around that a name denotes. -/
def param? (c : LowerContext) (name : String) : Option FunctionParam :=
  c.function.bind (·.param? name)

/-- The content that a name stands for. -/
def lowerName (c : LowerContext) (name : String) (span : Span) : Content :=
  if let some param := c.param? name then
    .ofSteps param.type.reporterOpcode [.text "VALUE" name]
  else if let some v := c.defs.scalars.get? name then v.reporter
  else if let some l := c.defs.lists.get? name then l.reporter
  else if let some value := (c.defs.constants.get? name).bind (·.value) then .literal value
  else if let some signature := c.catalog.reporter? name then signature.reporter
  else .failed (.unresolvedName name) span

/-- The signature of a call, by the recorded types of its arguments. -/
def signature (c : LowerContext) (b : Builtin) (args : List Expr) (span : Span) :
    Except Diagnostic Signature :=
  match args.mapM fun arg => c.types.get? arg.id with
  | none => .error (.lowering (.untypedArguments b.name) span)
  | some types =>
    match b.resolve types with
    | some signature => .ok signature
    | none => .error (.lowering (.noOverload b.name types) span)

/-- The list that an argument names. -/
def list? (c : LowerContext) (arg : Expr) : Option ListVariable :=
  arg.name?.bind c.defs.lists.get?

/-- The step that places an argument in its slot; `content` is what the argument stands for in an
input. -/
def place (c : LowerContext) (callee : String) (spec : ParamSpec) (arg : Expr) (content : Content) :
    Step :=
  match spec.slot with
  | .input name => .input name content
  | .field name =>
    match arg.value? with
    | some value => .text name value.text
    | none => .failed (.argumentNotFolded spec.name callee) arg.span
  | .menu name opcode field =>
    match arg.value? with
    | some value => .input name (.assembly (assemble opcode [.text field value.text] true))
    | none => .input name content
  | .list field =>
    match c.list? arg with
    | some list => .entity field list.name list.id
    | none => .failed (.argumentNotList spec.name callee) arg.span

mutual

/-- The content that an expression stands for. -/
def lowerExpr (c : LowerContext) : Expr → Content
  | .literal _ (.boolean true) => .ofSteps "operator_not" []
  | .literal _ (.boolean false) => .nothing
  | .literal _ value => .literal value
  | .group _ inner => lowerExpr c inner
  | .ident tag name => c.lowerName name tag.span
  | .call tag callee args =>
    match c.catalog.functions.get? callee with
    | none => .failed (.unknownFunction callee) tag.span
    | some b =>
      match c.signature b args tag.span with
      | .error d => .assembly { fault := some d }
      | .ok signature =>
        .ofSteps signature.opcode (signature.fieldSteps ++ placeAll c callee signature.params args)
  | .cast _ target operand =>
    match c.types.get? operand.id with
    | none => .failed .untyped operand.span
    | some source =>
      match castLayout? source target with
      | none => lowerExpr c operand
      | some (op, type, neutral) =>
        let (opcode, left, right) := op.layout type
        .ofSteps opcode [.input left (lowerExpr c operand), .input right (.literal neutral)]
  | .not _ operand => .ofSteps "operator_not" [.input "OPERAND" (lowerExpr c operand)]
  | .binary tag op leftExpr rightExpr =>
    match c.types.get? tag.id with
    | none => .failed .untyped tag.span
    | some type =>
      let (opcode, left, right) := op.layout type
      .ofSteps opcode [.input left (lowerExpr c leftExpr), .input right (lowerExpr c rightExpr)]
  | .list tag _ => .failed .looseList tag.span

/-- The steps that place arguments in their slots. -/
def placeAll (c : LowerContext) (callee : String) : List ParamSpec → List Expr → List Step
  | spec :: specs, arg :: args =>
    c.place callee spec arg (lowerExpr c arg) :: placeAll c callee specs args
  | _, _ => []

end

end LowerContext

end BlockScript
