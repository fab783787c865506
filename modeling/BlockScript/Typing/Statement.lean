import BlockScript.Typing.Declaration

/-!
# Statements

A call in statement position reaches a function of the program, else an event, else a statement of
the catalog. An assignment reaches a variable, else a writable property. Statements after one that
never lets control pass are analyzed all the same, and each draws a warning.
-/

namespace BlockScript

namespace Analyzer

/-- Analyzes a call in statement position with arguments of known types. The result says whether
control never comes back. -/
def callStatement (scope : Scope) (name : String) (args : List Expr) (types : List DataType)
    (span : Span) : Analyzer Bool := do
  let d ← defs
  if let some f := d.functions.get? name then
    define (·.useFunction name)
    if types ≠ f.paramTypes then fail (.functionArguments name f.paramTypes types) span
    return false
  if d.events.contains name then
    define (·.useEvent name)
    if !args.isEmpty then fail (.eventArguments name) span
    return false
  if let some b := scope.catalog.statements.get? name then
    let signature ← resolve b types span
    checkArguments name signature args
    return signature.terminates
  if scope.catalog.functions.contains name then fail (.valueIgnored name) span
  failUnknownCall scope name span

/-- Fails if a variable or property cannot take a value of a type. -/
def checkAssign (name : String) (type : DataType) (op : AssignOp) (found : DataType) (span : Span) :
    Analyzer Unit :=
  match assignFault? name type op found with
  | some fault => fail fault span
  | none => pure ()

/-- Whether a property takes an assignment: it can be set, changed by a difference, or read and
set. -/
def supportsAssign (catalog : Catalog) (property : Property) (target : String) :
    AssignOp → Bool
  | .set => true
  | .add | .sub => property.change?.isSome || catalog.reporters.contains target
  | _ => catalog.reporters.contains target

/-- Analyzes an assignment. -/
def assignment (scope : Scope) (target : String) (op : AssignOp) (value : Expr) (span : Span) :
    Analyzer Unit := do
  let found ← exprType scope value
  let s ← get
  let d := s.defs
  if (scope.param? d target).isSome then fail (.assignedParameter target) span
  if let some v := d.scalars.get? target then
    if op ≠ .set then define (·.useVariable target)
    checkAssign target v.type op found value.span
    return
  if d.lists.contains target then fail (.assignedList target) span
  if d.constants.contains target then fail (.assignedConstant target) span
  if s.pending.contains target then fail (.usedBeforeDeclaration target) span
  if let some property := scope.catalog.properties.get? target then
    checkAssign target property.type op found value.span
    if !supportsAssign scope.catalog property target op then
      fail (.unsupportedAssignment target op) span
    return
  if scope.catalog.reporters.contains target then fail (.readOnly target) span
  fail (.undefinedVariable target) span

/-- Analyzes the header of a loop. -/
def loopHeader (scope : Scope) : LoopKind → Analyzer Unit
  | .forever => return
  | .times count => expectType scope count .number .countMismatch
  | .until condition => expectType scope condition .boolean .conditionMismatch

mutual

/-- Analyzes a statement. The result is what stands for it in the analyzed program, and whether
control never passes it. -/
def statement (scope : Scope) : Stmt → Analyzer (List Stmt × Bool)
  | .varDecl name type value hoisted span => do
    if ← checkUnique scope name span then
      let (decl, assign) ← declareVariable scope name type value hoisted span
      return (decl :: assign.toList, false)
    else return ([], false)
  | .constDecl name type value span => do
    if ← checkUnique scope name span then declareConstant scope name type value span
    return ([.constDecl name type value span], false)
  | .funcDecl _ _ _ span _ => do
    reportFault .nestedItem span
    return ([], false)
  | .event _ _ _ _ span _ => do
    reportFault .nestedItem span
    return ([], false)
  | .call name args span => do
    let stops ← reporting do callStatement scope name args (← exprTypes scope args) span
    return ([.call name args span], stops.getD false)
  | .assign target op value span => do
    let _ ← reporting (assignment scope target op value span)
    return ([.assign target op value span], false)
  | .branch condition thenBody elseBody span => do
    expectType scope condition .boolean .conditionMismatch
    let thenBody ← statements scope false thenBody
    let elseBody ← statements scope false elseBody
    return ([.branch condition thenBody elseBody span], false)
  | .loop kind body span => do
    loopHeader scope kind
    let body ← statements scope false body
    let forever := match kind with
      | .forever => true
      | _ => false
    return ([.loop kind body span], forever)

/-- Analyzes statements in order. `stopped` says whether control never reaches them. -/
def statements (scope : Scope) (stopped : Bool) : List Stmt → Analyzer (List Stmt)
  | [] => return []
  | stmt :: rest => do
    if stopped && scope.options.warnUnreachable then warn .unreachable stmt.span
    let (first, stops) ← statement scope stmt
    return first ++ (← statements scope (stopped || stops) rest)

end

end Analyzer

end BlockScript
