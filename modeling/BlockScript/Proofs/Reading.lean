import BlockScript.Proofs.Linking

/-!
# Reading blocks back

A term is what a program computes with: an expression in which names are entities, and which says no
more than blocks can say. A graph is read back from an input: a value is itself, an empty input is
`false`, a menu is the text in its field, and a reporter is the operation, the entity or the entry
of the catalog that it stands for. An expression has a normal form, which is a term as well.
-/

namespace BlockScript

/-- What a block with two operands does. -/
inductive Operation where
  | binary (op : BinaryOp)
  /-- Joining two texts. -/
  | join
  deriving DecidableEq

/-- A value as blocks compute it. -/
inductive Term where
  | value (v : Value)
  | not (operand : Term)
  | operation (op : Operation) (left right : Term)
  /-- A parameter of the function around; `truth` says whether it takes truth values. -/
  | param (name : String) (truth : Bool)
  | variable (name : String) (id : EntityId)
  | list (name : String) (id : EntityId)
  /-- A readable property or a function of the catalog, with its fixed fields and its arguments. -/
  | builtin (name : String) (fields : List (String × String)) (args : List Term)

/-- A text. -/
def Term.text (text : String) : Term := .value (.string text)

/-- The negation of a term. There is no block for `true` but that of `not false`. -/
def Term.negation : Term → Term
  | .value (.boolean false) => .value (.boolean true)
  | t => .not t

/-- The conversion of a term: a text becomes a number by adding zero, a number or list becomes a
text by joining nothing to it, and all else stays as it is. -/
def Term.cast (source target : DataType) (t : Term) : Term :=
  match source, target with
  | .string, .number => .operation (.binary .add) t (.value (.number 0.0))
  | .number, .string | .numberList, .string | .stringList, .string =>
    .operation .join t (.value (.string ""))
  | _, _ => t

/-- What an operator does for operands of which the result has a type. A sum of type text joins. -/
def BinaryOp.operation (op : BinaryOp) (result : DataType) : Operation :=
  if op = .add ∧ result = .string then .join else .binary op

namespace Operation

/-- All operations. -/
def all : List Operation :=
  .join :: ([.add, .sub, .mul, .div, .mod, .lt, .gt, .eq, .and, .or] : List BinaryOp).map .binary

/-- The block of an operation and the inputs of its operands. -/
def layout : Operation → String × String × String
  | .join => ("operator_join", "STRING1", "STRING2")
  | .binary .add => ("operator_add", "NUM1", "NUM2")
  | .binary .sub => ("operator_subtract", "NUM1", "NUM2")
  | .binary .mul => ("operator_multiply", "NUM1", "NUM2")
  | .binary .div => ("operator_divide", "NUM1", "NUM2")
  | .binary .mod => ("operator_mod", "NUM1", "NUM2")
  | .binary .lt => ("operator_lt", "OPERAND1", "OPERAND2")
  | .binary .gt => ("operator_gt", "OPERAND1", "OPERAND2")
  | .binary .eq => ("operator_equals", "OPERAND1", "OPERAND2")
  | .binary .and => ("operator_and", "OPERAND1", "OPERAND2")
  | .binary .or => ("operator_or", "OPERAND1", "OPERAND2")

/-- The operation of a block. -/
def ofOpcode? (opcode : String) : Option Operation := all.find? (·.layout.1 = opcode)

end Operation

/-- The layout of an operation. -/
theorem BinaryOp.layout_operation (op : BinaryOp) (type : DataType) :
    (op.operation type).layout = op.layout type := by
  cases op with
  | add => cases type <;> rfl
  | _ => rfl

/-- The kinds of blocks for terms that are no entries of a catalog. -/
def reservedOpcodes : List String :=
  ["operator_not", "data_variable", "data_listcontents", "argument_reporter_boolean",
    "argument_reporter_string_number"] ++ Operation.all.map (·.layout.1)

/-- The field that a slot uses. -/
def Slot.field? : Slot → Option String
  | .field name | .list name => some name
  | .input _ | .menu .. => none

/-- The fields that arguments go to. -/
def Signature.slotFields (s : Signature) : List String := s.params.filterMap (·.slot.field?)

/-- Whether a block can be that of a signature: it is of the same kind and has the fixed fields. -/
def Signature.shownBy (s : Signature) (face : Face) : Bool :=
  s.opcode = face.opcode &&
    s.fields.all fun (name, value) => (face.fields.get? name).map (·.value) = some value

/-- The entries of a catalog that have a value, with their names. -/
def Catalog.reporting (c : Catalog) : List (String × Signature) :=
  (c.reporters.entries ++ c.functions.entries).flatMap fun (name, b) => b.signatures.map (name, ·)

/-- The entry that a block belongs to. -/
def Catalog.entryOf? (c : Catalog) (face : Face) : Option (String × Signature) :=
  c.reporting.find? (·.2.shownBy face)

section Reading

variable (read : Option Input → Option Term)

/-- The entity that a field names. -/
def Node.entity? (n : Node) (make : String → EntityId → Term) (field : String) : Option Term :=
  (n.face.fields.get? field).bind fun f => f.entity.map (make f.value)

/-- What a block has in a slot. -/
def Node.argument? (n : Node) : Slot → Option Term
  | .input name | .menu name _ _ => read (n.inputs.get? name)
  | .field name => (n.face.fields.get? name).map fun f => .text f.value
  | .list name => n.entity? .list name

/-- What a menu selects: the text in its only field. -/
def Node.selection? (n : Node) : Option Term :=
  match n.face.fields.values with
  | [f] => some (.text f.value)
  | _ => none

/-- What a block of the catalog computes. -/
def Node.builtin? (catalog : Catalog) (n : Node) : Option Term := do
  let (name, s) ← catalog.entryOf? n.face
  let args ← (s.params.map (·.slot)).mapM (n.argument? read)
  return .builtin name s.fields args

/-- What a block computes, where `read` reads what its inputs refer to. -/
def Node.term? (catalog : Catalog) (n : Node) : Option Term :=
  if n.face.shadow then n.selection?
  else if n.face.opcode = "operator_not" then (read (n.inputs.get? "OPERAND")).map .negation
  else if n.face.opcode = "data_variable" then n.entity? .variable "VARIABLE"
  else if n.face.opcode = "data_listcontents" then n.entity? .list "LIST"
  else if n.face.opcode = "argument_reporter_boolean" then
    (n.face.fields.get? "VALUE").map fun f => .param f.value true
  else if n.face.opcode = "argument_reporter_string_number" then
    (n.face.fields.get? "VALUE").map fun f => .param f.value false
  else match Operation.ofOpcode? n.face.opcode with
    | some op => do
      let left ← read (n.inputs.get? op.layout.2.1)
      let right ← read (n.inputs.get? op.layout.2.2)
      return .operation op left right
    | none => n.builtin? read catalog

end Reading

/-- What an input holds, for blocks that are nested at most as deep as the number says. -/
def Graph.readWithin (g : Graph) (catalog : Catalog) : Nat → Option Input → Option Term
  | _, none => some (.value (.boolean false))
  | _, some (.literal value) => some (.value value)
  | 0, some (.block _) => none
  | depth + 1, some (.block id) =>
    g.nodes[id]?.bind fun n => n.term? (g.readWithin catalog depth) catalog

/-- What an input holds. No blocks are nested deeper than there are blocks. -/
def Graph.read (g : Graph) (catalog : Catalog) (input : Option Input) : Option Term :=
  g.readWithin catalog g.size input

namespace LowerContext

/-- The entity or value that the tables have for a name. -/
def nameTerm? (c : LowerContext) (name : String) : Option Term :=
  if let some param := c.param? name then some (.param name (param.type = .boolean))
  else if let some v := c.defs.scalars.get? name then some (.variable v.name v.id)
  else if let some l := c.defs.lists.get? name then some (.list l.name l.id)
  else if let some value := (c.defs.constants.get? name).bind (·.value) then
    some (.value value)
  else (c.catalog.reporter? name).map fun s => .builtin name s.fields []

mutual

/-- The normal form of an expression. List literals have none. -/
def normal? (c : LowerContext) : Expr → Option Term
  | .literal _ value => some (.value value)
  | .group _ inner => normal? c inner
  | .ident _ name => c.nameTerm? name
  | .call _ callee args => do
    let b ← c.catalog.functions.get? callee
    let types ← args.mapM fun arg => c.types.get? arg.id
    let s ← b.resolve types
    return .builtin callee s.fields (← normalAll? c args)
  | .cast _ target operand => do
    let source ← c.types.get? operand.id
    return (← normal? c operand).cast source target
  | .not _ operand => return (← normal? c operand).negation
  | .binary tag op left right => do
    let type ← c.types.get? tag.id
    return .operation (op.operation type) (← normal? c left) (← normal? c right)
  | .list .. => none

/-- The normal forms of expressions. -/
def normalAll? (c : LowerContext) : List Expr → Option (List Term)
  | [] => some []
  | e :: rest => do
    let t ← normal? c e
    return t :: (← normalAll? c rest)

end

/-- What the arguments of a call stand for, each with its slot. -/
def argumentTerms (c : LowerContext) (specs : List ParamSpec) (args : List Expr) :
    List (Slot × Option Term) :=
  (specs.zip args).map fun (spec, arg) => (spec.slot, c.normal? arg)

/-- What an operator makes of the current value of a target and an operand. -/
def combined? (c : LowerContext) (op : BinaryOp) (type : DataType) (current : Term) (value : Expr) :
    Option Term := do
  return .operation (op.operation type) current (← c.normal? value)

/-- The negation of an expression, which is a product if the expression is no literal. -/
def opposite? (c : LowerContext) (value : Expr) : Option Term :=
  match value.value? with
  | some (.number n) => some (.value (.number (-n)))
  | _ => do return .operation (.binary .mul) (.value (.number (-1.0))) (← c.normal? value)

/-- What the first parameter of a signature is to hold. -/
def firstTerm (signature : Signature) (t : Option Term) : List (Slot × Option Term) :=
  signature.params.head?.toList.map fun spec => (spec.slot, t)

/-- What an assignment to a variable stores, or adds to a number. -/
def variableTerm? (c : LowerContext) (v : Variable) (op : AssignOp) (value : Expr) : Option Term :=
  if op = .add && v.type = .number then c.normal? value
  else match op.binary? with
    | none => c.normal? value
    | some op => c.combined? op v.type (.variable v.name v.id) value

/-- What an assignment to a property sets it to, or changes it by. -/
def propertyTerms (c : LowerContext) (property : Property) (target : String) (op : AssignOp)
    (value : Expr) : List (Slot × Option Term) :=
  match op, op.binary?, property.change? with
  | _, none, _ => c.argumentTerms property.set.params [value]
  | .add, _, some change => firstTerm change (c.normal? value)
  | .sub, _, some change => firstTerm change (c.opposite? value)
  | _, some binary, _ => firstTerm property.set do
    let reporter ← c.catalog.reporter? target
    c.combined? binary property.type (.builtin target reporter.fields []) value

/-- What the block of a call has in its slots. -/
def callTerms (c : LowerContext) (name : String) (args : List Expr) (span : Span) :
    List (Slot × Option Term) :=
  if let some f := c.defs.functions.get? name then
    (f.params.zip args).map fun (param, arg) => (.input param.id.text, c.normal? arg)
  else if c.defs.events.contains name then []
  else match c.catalog.statements.get? name with
    | none => []
    | some b =>
      match c.signature b args span with
      | .error _ => []
      | .ok signature => c.argumentTerms signature.params args

/-- What the block of a statement has in its slots, apart from bodies. -/
def terms (c : LowerContext) : Stmt → List (Slot × Option Term)
  | .varDecl .. | .constDecl .. | .funcDecl .. | .event .. => []
  | .call name args span => c.callTerms name args span
  | .assign target op value _ =>
    if let some v := c.defs.scalars.get? target then
      [(.input "VALUE", c.variableTerm? v op value)]
    else match c.catalog.properties.get? target with
      | some property => c.propertyTerms property target op value
      | none => []
  | .branch condition _ _ _ => [(.input "CONDITION", c.normal? condition)]
  | .loop .forever _ _ => []
  | .loop (.times count) _ _ => [(.input "TIMES", c.normal? count)]
  | .loop (.until condition) _ _ => [(.input "CONDITION", c.normal? condition)]

/-- What the first block of a script has in its slots. -/
def headTerms (c : LowerContext) : Stmt → List (Slot × Option Term)
  | .event kind name (some param) _ _ _ =>
    if kind = .custom then []
    else match c.catalog.hat? name with
      | none => []
      | some signature => c.argumentTerms (signature.params.take 1) [param]
  | _ => []

end LowerContext

end BlockScript
