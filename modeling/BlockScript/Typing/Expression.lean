import BlockScript.Typing.Analyzer

/-!
# Types of expressions

A name denotes a parameter, else a variable, a list or a constant, else a readable property. A call
in an expression reaches only entries of the catalog that return a value. The type of every node is
recorded when all nodes below it have types.
-/

namespace BlockScript

namespace Analyzer

/-- The type of a name. -/
def nameType (scope : Scope) (name : String) (span : Span) : Analyzer DataType := do
  let s ← get
  let d := s.defs
  if let some param := scope.param? d name then return param.type
  if scope.declaring = some name then fail (.ownInitializer name) span
  if let some v := d.scalars.get? name then
    define (·.useVariable name)
    return v.type
  if let some l := d.lists.get? name then
    define (·.useList name)
    return l.type
  if let some c := d.constants.get? name then
    define (·.useConstant name)
    return c.type
  if s.pending.contains name then fail (.usedBeforeDeclaration name) span
  if let some type := (scope.catalog.reporter? name).bind (·.result) then return type
  if d.functions.contains name then fail (.functionAsValue name) span
  if d.events.contains name then fail (.eventAsValue name) span
  fail (.undefinedName name) span

/-- Checks the options that an argument with a known value has. -/
def checkOption (callee : String) (spec : ParamSpec) (arg : Expr) : Analyzer Unit := do
  if let some fault := optionFault? (← defs) callee spec arg then report fault

/-- Checks an argument of an entry of the catalog: lists must be named, and known values must be
among the options. -/
def checkArgument (callee : String) (spec : ParamSpec) (arg : Expr) : Analyzer Unit := do
  if let .list _ := spec.slot then
    let d ← defs
    if !(arg.name?.any d.lists.contains) then
      reportFault (.argumentNotList spec.name callee) arg.span
  checkOption callee spec arg

/-- Checks the arguments of an entry of the catalog. -/
def checkArguments (callee : String) (signature : Signature) (args : List Expr) : Analyzer Unit :=
  (signature.params.zip args).forM fun (spec, arg) => checkArgument callee spec arg

/-- The signature of a call, by the types of its arguments. -/
def resolve (b : Builtin) (types : List DataType) (span : Span) : Analyzer Signature :=
  match b.resolve types with
  | some signature => pure signature
  | none => fail (b.overloadFault types) span

/-- Fails because nothing that can be called has a name. -/
def failUnknownCall {α : Type} (scope : Scope) (name : String) (span : Span) : Analyzer α :=
  fail (if scope.catalog.defines name then .notCallable name else .unknownFunction name) span

/-- The type of a call with arguments of known types. -/
def callType (scope : Scope) (name : String) (args : List Expr) (types : List DataType)
    (span : Span) : Analyzer DataType := do
  if let some b := scope.catalog.functions.get? name then
    let signature ← resolve b types span
    checkArguments name signature args
    match signature.result with
    | some type => return type
    | none => fail (.returnsNothing name) span
  let d ← defs
  if d.functions.contains name then
    define (·.useFunction name)
    fail (.functionReturnsNothing name) span
  if d.events.contains name || scope.catalog.statements.contains name then
    fail (.returnsNothing name) span
  failUnknownCall scope name span

/-- The type of a cast. -/
def castType (target source : DataType) (span : Span) : Analyzer DataType :=
  if source.castable target then pure target else fail (.invalidCast source target) span

/-- The type of a binary operation. -/
def binaryType (op : BinaryOp) (left right : DataType) (span : Span) : Analyzer DataType :=
  match op.resultType? left right with
  | some type => pure type
  | none => fail (.operandMismatch op left right) span

/-- The type of a negation. -/
def notType (operand : DataType) (span : Span) : Analyzer DataType :=
  if operand = .boolean then pure .boolean else fail (.negationMismatch operand) span

/-- Records the type of a node and returns it. -/
def recorded (tag : Tag) (type : DataType) : Analyzer DataType := do
  recordType tag.id type
  return type

mutual

/-- The type of an expression, recorded with the types of all nodes below it. -/
def exprType (scope : Scope) : Expr → Analyzer DataType
  | .literal tag value => recorded tag value.dataType
  | .ident tag name => do recorded tag (← nameType scope name tag.span)
  | .call tag callee args => do
    let types ← exprTypes scope args
    recorded tag (← callType scope callee args types tag.span)
  | .cast tag target operand => do
    let source ← exprType scope operand
    recorded tag (← castType target source tag.span)
  | .list tag _ => fail .looseList tag.span
  | .not tag operand => do
    let type ← exprType scope operand
    recorded tag (← notType type tag.span)
  | .binary tag op left right => do
    let leftType ← exprType scope left
    let rightType ← exprType scope right
    recorded tag (← binaryType op leftType rightType tag.span)
  | .group tag inner => do recorded tag (← exprType scope inner)

/-- The types of several expressions, up to the first that has none. -/
def exprTypes (scope : Scope) : List Expr → Analyzer (List DataType)
  | [] => return []
  | e :: rest => do
    let type ← exprType scope e
    return type :: (← exprTypes scope rest)

end

/-- Checks that an expression has a type. -/
def expectType (scope : Scope) (e : Expr) (expected : DataType)
    (mismatch : DataType → AnalysisFault) : Analyzer Unit := do
  if let some found := ← reporting (exprType scope e) then
    if found ≠ expected then reportFault (mismatch found) e.span

end Analyzer

end BlockScript
