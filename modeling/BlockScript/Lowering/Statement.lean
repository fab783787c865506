import BlockScript.Lowering.Expression
import BlockScript.Program

/-!
# Lowering of statements

A statement becomes a block, and declarations become nothing. The blocks of a body follow one
another; nothing follows a block that never lets control pass.
-/

namespace BlockScript

namespace LowerContext

/-- The block of an entry of the catalog with arguments. -/
def lowerBuiltin (c : LowerContext) (signature : Signature) (callee : String) (args : List Expr) :
    Assembly :=
  assemble signature.opcode (signature.fieldSteps ++ c.placeAll callee signature.params args)

/-- The block that calls a function. -/
def lowerFunctionCall (c : LowerContext) (f : Function) (args : List Expr) : Assembly :=
  let inputs := (f.params.zip args).map fun (param, arg) =>
    Step.input param.id.text (c.lowerExpr arg)
  assemble "procedures_call"
    (inputs ++ [.mutation { procedure := f.procedure, argumentIds := f.params.map (·.id) }])

/-- The block that broadcasts an event. -/
def lowerBroadcast (event : CustomEvent) (name : String) : Assembly :=
  assemble "event_broadcast"
    [.input "BROADCAST_INPUT" (.assembly
      (assemble "event_broadcast_menu" [.entity "BROADCAST_OPTION" name event.id] true))]

/-- The block of a call, and whether control never passes it. -/
def lowerCall (c : LowerContext) (name : String) (args : List Expr) (span : Span) :
    Assembly × Bool :=
  if let some f := c.defs.functions.get? name then (c.lowerFunctionCall f args, false)
  else if let some event := c.defs.events.get? name then (lowerBroadcast event name, false)
  else match c.catalog.statements.get? name with
    | none => (.failed (.unknownStatement name) span, false)
    | some b =>
      match c.signature b args span with
      | .error d => ({ fault := some d }, false)
      | .ok signature => (c.lowerBuiltin signature name args, signature.terminates)

/-- The block that applies an operator to the value of a target and an operand. -/
def combine (c : LowerContext) (op : BinaryOp) (type : DataType) (current : Content)
    (value : Expr) : Content :=
  let (opcode, left, right) := op.layout type
  .ofSteps opcode [.input left current, .input right (c.lowerExpr value)]

/-- The content of the negation of an expression: a negative literal, or a product. -/
def negated (c : LowerContext) (value : Expr) : Content :=
  match value.value? with
  | some (.number n) => .literal (.number (-n))
  | _ =>
    .ofSteps "operator_multiply"
      [.input "NUM1" (.literal (.number (-1.0))), .input "NUM2" (c.lowerExpr value)]

/-- The block that assigns to a variable. -/
def assignVariable (c : LowerContext) (v : Variable) (op : AssignOp) (value : Expr) : Assembly :=
  let target := Step.entity "VARIABLE" v.name v.id
  if op = .add && v.type = .number then
    assemble "data_changevariableby" [target, .input "VALUE" (c.lowerExpr value)]
  else
    let content := match op.binary? with
      | none => c.lowerExpr value
      | some op => c.combine op v.type v.reporter value
    assemble "data_setvariableto" [target, .input "VALUE" content]

/-- The step that fills the value input of a block that sets or changes a property. -/
def valueStep (signature : Signature) (content : Content) (span : Span) : Step :=
  match signature.params.head?.map ParamSpec.slot with
  | some (.input name) => .input name content
  | _ => .failed (.noValueInput signature.opcode) span

/-- The block that sets or changes a property by one value. -/
def propertyBlock (signature : Signature) (content : Content) (span : Span) : Assembly :=
  assemble signature.opcode (signature.fieldSteps ++ [valueStep signature content span])

/-- The block that assigns to a property. -/
def assignProperty (c : LowerContext) (property : Property) (target : String) (op : AssignOp)
    (value : Expr) (span : Span) : Assembly :=
  match op, op.binary?, property.change? with
  | _, none, _ => c.lowerBuiltin property.set target [value]
  | .add, _, some change => propertyBlock change (c.lowerExpr value) span
  | .sub, _, some change => propertyBlock change (c.negated value) span
  | _, some binary, _ =>
    match c.catalog.reporter? target with
    | none => .failed (.unreadableTarget target) span
    | some reporter =>
      propertyBlock property.set (c.combine binary property.type reporter.reporter value) span

/-- The block of an assignment. -/
def lowerAssign (c : LowerContext) (target : String) (op : AssignOp) (value : Expr) (span : Span) :
    Assembly :=
  if let some v := c.defs.scalars.get? target then c.assignVariable v op value
  else match c.catalog.properties.get? target with
    | some property => c.assignProperty property target op value span
    | none => .failed (.unknownTarget target) span

end LowerContext

/-- The blocks of a body. -/
structure Chain where
  /-- The first block, with all that follow. -/
  first : Option Block := none
  /-- Whether the first block is complete, so that the block before may refer to it. -/
  complete : Bool := true
  /-- Why the body is not complete. -/
  fault : Option Diagnostic := none

/-- A body as content of a link. -/
def Chain.content (chain : Chain) : Content := .assembly ⟨chain.first, chain.fault⟩

/-- The chain of one block and of those after it. -/
def Chain.cons (b : Block) (rest : Chain) : Chain :=
  match rest.first with
  | none => { rest with first := some b, complete := true }
  | some next =>
    { first := some (b.holding (if rest.complete then .next else .loose) next)
      fault := rest.fault }

/-- The chain that begins with an assembly. -/
def Chain.ofAssembly (a : Assembly) (stops : Bool) (rest : Chain) : Chain :=
  match a.block, a.fault with
  | first, some d => { first, complete := false, fault := some d }
  | none, none => rest
  | some b, none => if stops then { first := some b } else .cons b rest

/-- The kind of block of a loop, and the step for its header. -/
def LowerContext.lowerLoop (c : LowerContext) : LoopKind → String × List Step
  | .forever => ("control_forever", [])
  | .times count => ("control_repeat", [.input "TIMES" (c.lowerExpr count)])
  | .until condition => ("control_repeat_until", [.input "CONDITION" (c.lowerExpr condition)])

/-- Whether control never leaves a loop. -/
def LoopKind.isForever : LoopKind → Bool
  | .forever => true
  | _ => false

namespace LowerContext

mutual

/-- The block of a statement, and whether control never passes it. -/
def lowerStmt (c : LowerContext) : Stmt → Assembly × Bool
  | .varDecl .. | .constDecl .. | .funcDecl .. | .event .. => ({}, false)
  | .call name args span => c.lowerCall name args span
  | .assign target op value span => (c.lowerAssign target op value span, false)
  | .branch condition thenBody elseBody _ =>
    let condition := Step.input "CONDITION" (c.lowerExpr condition)
    let thenStep := Step.input "SUBSTACK" (lowerBody c thenBody).content
    if elseBody.isEmpty then (assemble "control_if" [condition, thenStep], false)
    else
      let elseStep := Step.input "SUBSTACK2" (lowerBody c elseBody).content
      (assemble "control_if_else" [condition, thenStep, elseStep], false)
  | .loop kind body _ =>
    let (opcode, header) := c.lowerLoop kind
    let bodyStep := Step.input "SUBSTACK" (lowerBody c body).content
    (assemble opcode (header ++ [bodyStep]), kind.isForever)

/-- The blocks of a body. -/
def lowerBody (c : LowerContext) : List Stmt → Chain
  | [] => {}
  | stmt :: rest =>
    let (a, stops) := lowerStmt c stmt
    .ofAssembly a stops (lowerBody c rest)

end

end LowerContext

end BlockScript
