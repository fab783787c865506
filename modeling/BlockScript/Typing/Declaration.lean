import BlockScript.Typing.Expression

/-!
# Declarations

Every name is declared once in a program, and never like a parameter of the function around it. A
variable that holds one value is declared and then assigned: its initializer becomes an assignment
of its own. Lists keep their initializer, which must be a list literal.
-/

namespace BlockScript

namespace Analyzer

/-- Whether a name may be declared here; if not, the fault is reported. -/
def checkUnique (scope : Scope) (name : String) (span : Span) : Analyzer Bool := do
  let s ← get
  let owner? := (scope.function? s.defs).filter fun f => (f.param? name).isSome
  if let some owner := owner? then
    reportFault (.shadowsParameter name owner.name) span
    return false
  match s.defs.declaredAt? name <|> s.pending.get? name with
  | some previous =>
    reportFault (.redeclared name previous.start.line) span
    return false
  | none => return true

/-- The type of an initializer of a name, which must not use the name. -/
def initializerType (scope : Scope) (name : String) (value : Expr) : Analyzer DataType :=
  exprType { scope with declaring := some name } value

/-- The initializer of a variable that has none: the default of its type. -/
def defaultInitializer (name : String) (type : Option DataType) (span : Span) :
    Analyzer (Expr × DataType) := do
  match type with
  | none => fail (.untypedVariable name) span
  | some type =>
    match type.default? with
    | none => fail (.missingInitializer name type) span
    | some value =>
      let id ← modifyGet fun s => (s.nextId, { s with nextId := s.nextId + 1 })
      recordType id type
      return (.literal ⟨id, span⟩ value, type)

/-- The initializer and the type of a variable that holds one value. -/
def scalarInitializer (scope : Scope) (name : String) (type : Option DataType)
    (value : Option Expr) (span : Span) : Analyzer (Expr × DataType) := do
  if type = some .boolean then fail (.booleanVariable name) span
  match value with
  | none => defaultInitializer name type span
  | some value =>
    let found ← initializerType scope name value
    if found = .boolean then fail (.booleanVariable name) value.span
    if found.isList then fail (.listInVariable name) value.span
    let target := type.getD found
    if !target.assignable found then
      fail (.initializerMismatch name target found) value.span
    return (value, target)

/-- The type of list elements after one more element: `known` is the type so far. -/
def elementType (scope : Scope) (name : String) (known : Option DataType) (item : Expr) :
    Analyzer (Option DataType) := do
  match ← reporting (initializerType scope name item) with
  | none => return known
  | some found =>
    match known with
    | some expected =>
      if expected ≠ found then reportFault (.elementMismatch expected found) item.span
      return known
    | none =>
      if found.isScalar then return some found
      reportFault (.elementUnsupported found) item.span
      return none

/-- The element type of a list with these items. The list literal gets its type if there is one. -/
def itemsType (scope : Scope) (name : String) (declared : Option DataType) (value : Expr)
    (items : List Expr) (span : Span) : Analyzer (Option DataType) := do
  let element ← items.foldlM (elementType scope name) declared
  match element.bind DataType.listOf? with
  | some type =>
    recordType value.id type
    recordType value.ungrouped.id type
  | none => if items.isEmpty then reportFault (.untypedList name) span
  return element

/-- The element type of a list declaration; nothing if there is no such list. -/
def listElement (scope : Scope) (name : String) (type : Option DataType) (value : Option Expr)
    (span : Span) : Analyzer (Option DataType) := do
  if let some scalar := type.filter (!·.isList) then
    reportFault (.listForScalar name scalar) span
    return none
  let declared := type.bind DataType.element?
  match value with
  | none => return declared
  | some value =>
    match value.items? with
    | some items => itemsType scope name declared value items span
    | none =>
      reportFault (.listNeedsLiteral name) value.span
      return none

/-- Declares a variable or a list. A variable that holds one value comes back as a declaration
without initializer and an assignment. -/
def declareVariable (scope : Scope) (name : String) (type : Option DataType)
    (value : Option Expr) (hoisted : Bool) (span : Span) : Analyzer (Stmt × Option Stmt) := do
  let unchanged := Stmt.varDecl name type value hoisted span
  if (value.bind Expr.items?).isSome || type.any DataType.isList then
    if let some element := ← listElement scope name type value span then
      define (·.addList name element span)
    return (unchanged, none)
  if hoisted then
    if let some type := type then define (·.addVariable name type span)
    return (unchanged, none)
  match ← reporting (scalarInitializer scope name type value span) with
  | some (value, type) =>
    define (·.addVariable name type span)
    return (.varDecl name (some type) none true span, some (.assign name .set value span))
  | none => return (.varDecl name type none hoisted span, none)

/-- Declares a constant. -/
def declareConstant (scope : Scope) (name : String) (type : Option DataType) (value : Expr)
    (span : Span) : Analyzer Unit := do
  if let some found := ← reporting (initializerType scope name value) then
    if found.isList then reportFault (.listInConstant name) value.span
    else
      let declared := type.getD found
      if declared ≠ found then reportFault (.constantMismatch name declared found) value.span
      define (·.addConstant name declared value.value? span)

/-- Checks the parameters of a function: none is a list, and no name comes twice. `seen` holds the
names of the parameters before. -/
def checkParameters (seen : List String) : List Parameter → Analyzer Unit
  | [] => return
  | param :: rest => do
    if param.type.isList then
      reportFault (.listParameter param.name) param.span
      checkParameters seen rest
    else
      if seen.contains param.name then reportFault (.duplicateParameter param.name) param.span
      checkParameters (param.name :: seen) rest

/-- Makes the name of an item known before any body is analyzed. The result says whether the item
counts: a name that is taken does not. -/
def announce (scope : Scope) : Stmt → Analyzer Bool
  | .varDecl name _ _ _ span | .constDecl name _ _ span => do
    if ← checkUnique scope name span then
      modify fun s => { s with pending := s.pending.insert name span }
      return true
    else return false
  | .funcDecl name params _ span endLine => do
    if ← checkUnique scope name span then
      checkParameters [] params
      define (·.addFunction name (params.map fun p => (p.name, p.type)) span endLine)
      return true
    else return false
  | .event .custom name _ _ span endLine => do
    if ← checkUnique scope name span then
      define (·.addEvent name span endLine)
      return true
    else return false
  | _ => return true

end Analyzer

end BlockScript
