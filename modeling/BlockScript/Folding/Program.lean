import BlockScript.Folding.Expression
import BlockScript.Program

/-!
# Folding of programs

The constants of the outermost level are folded first, in order, so that every body may use them.
The rest of the program follows in order. Values of constants and items of lists become part of the
definitions as soon as they are known.
-/

namespace BlockScript

/-- What folding changes as it goes through a program. -/
structure FoldState where
  /-- What the program declares, with the values found so far. -/
  defs : Definitions
  /-- The names of the parameters of the function that is being folded. -/
  params : List String := []
  /-- The errors, the oldest first. -/
  errors : List Diagnostic := []

/-- A step of folding. -/
abbrev Folder := StateM FoldState

/-- Records the value of a constant. -/
def Definitions.setConstant (d : Definitions) (name : String) (value : Value) : Definitions :=
  { d with constants := d.constants.modify name ({ · with value := some value }) }

/-- Records the items of a list. -/
def Definitions.setItems (d : Definitions) (name : String) (values : List Value) : Definitions :=
  { d with lists := d.lists.modify name ({ · with values }) }

/-- Adds a finding to the errors, unless it counts once and is there. -/
def Finding.addTo (errors : List Diagnostic) (finding : Finding) : List Diagnostic :=
  let d := finding.diagnostic
  if finding.once && errors.any (fun e => e.span = d.span && e.message = d.message) then errors
  else errors ++ [d]

namespace Folder

/-- Adds findings to the errors. -/
def record (findings : List Finding) : Folder Unit :=
  modify fun s => { s with errors := findings.foldl Finding.addTo s.errors }

/-- Changes the definitions. -/
def define (change : Definitions → Definitions) : Folder Unit :=
  modify fun s => { s with defs := change s.defs }

/-- What is looked up at this point. -/
def context (c : FoldContext) : Folder FoldContext := do
  let s ← get
  return { c with defs := s.defs, params := s.params }

/-- Says which parameters hide constants from here on. -/
def setParams (params : List String) : Folder Unit :=
  modify fun s => { s with params }

/-- Folds an expression and records what it finds. -/
def expr (c : FoldContext) (e : Expr) : Folder Expr := do
  let c ← context c
  record (e.findings c)
  return e.fold c

/-- Folds several expressions and records what they find. -/
def exprs (c : FoldContext) (es : List Expr) : Folder (List Expr) := do
  let c ← context c
  record (Expr.findingsAll c es)
  return Expr.foldAll c es

/-- The faults of folded list items: their values must be known. -/
def itemFindings (items : List Expr) : List Finding :=
  (items.filter (·.value?.isNone)).map fun item => .always .elementUnknown item.span

/-- Folds the initializer of a variable or list. The items of a list become known. -/
def initializer (c : FoldContext) (name : String) (value : Expr) : Folder Expr := do
  let value ← expr c value
  if let some items := value.items? then
    record (itemFindings items)
    define (·.setItems name (items.filterMap Expr.value?))
  return value

/-- Folds the value of a constant, which becomes known. -/
def constantValue (c : FoldContext) (name : String) (value : Expr) : Folder Expr := do
  let value ← expr c value
  match value.value? with
  | some known => define (·.setConstant name known)
  | none => record [.always (.constantUnknown name) value.span]
  return value

/-- The faults of a folded parameter of an event: its value must be known, and one of the
options. -/
def eventFindings (c : FoldContext) (kind : EventKind) (name : String) (param : Expr) :
    List Finding :=
  if param.value?.isNone then [.always (.eventParameterUnknown name) param.span]
  else if kind = .custom then []
  else match (c.catalog.hat? name).bind (·.params.head?) with
    | some spec => c.optionFindings ("@" ++ name) spec param
    | none => []

/-- Folds the parameter of an event. -/
def eventParameter (c : FoldContext) (kind : EventKind) (name : String) (param : Expr) :
    Folder Expr := do
  let param ← expr c param
  record (eventFindings (← context c) kind name param)
  return param

/-- The faults of a call statement with folded arguments. Functions and events of the program take
all values. -/
def statementFindings (c : FoldContext) (name : String) (args : List Expr) : List Finding :=
  if c.defs.functions.contains name || c.defs.events.contains name then []
  else c.callFindings c.catalog.statements name args

/-- Folds the header of a loop. -/
def loopHeader (c : FoldContext) : LoopKind → Folder LoopKind
  | .forever => return .forever
  | .times count => return .times (← expr c count)
  | .until condition => return .until (← expr c condition)

mutual

/-- Folds a statement. -/
def statement (c : FoldContext) : Stmt → Folder Stmt
  | .varDecl name type value hoisted span => do
    let value ← value.mapM (initializer c name)
    return .varDecl name type value hoisted span
  | .constDecl name type value span => do
    let value ← constantValue c name value
    return .constDecl name type value span
  | .funcDecl name params body span endLine => do
    setParams (params.map (·.name))
    let body ← statements c body
    setParams []
    return .funcDecl name params body span endLine
  | .event kind name param body span endLine => do
    let param ← param.mapM (eventParameter c kind name)
    let body ← statements c body
    return .event kind name param body span endLine
  | .call name args span => do
    let args ← exprs c args
    record (statementFindings (← context c) name args)
    return .call name args span
  | .assign target op value span => do
    let value ← expr c value
    return .assign target op value span
  | .branch condition thenBody elseBody span => do
    let condition ← expr c condition
    let thenBody ← statements c thenBody
    let elseBody ← statements c elseBody
    return .branch condition thenBody elseBody span
  | .loop kind body span => do
    let kind ← loopHeader c kind
    let body ← statements c body
    return .loop kind body span

/-- Folds statements in order. -/
def statements (c : FoldContext) : List Stmt → Folder (List Stmt)
  | [] => return []
  | stmt :: rest => do
    let stmt ← statement c stmt
    return stmt :: (← statements c rest)

end

/-- Folds an item if it is a constant. -/
def constantItem (c : FoldContext) : Stmt → Folder Stmt
  | .constDecl name type value span => statement c (.constDecl name type value span)
  | stmt => return stmt

/-- Folds an item if it is no constant. -/
def otherItem (c : FoldContext) : Stmt → Folder Stmt
  | .constDecl name type value span => return .constDecl name type value span
  | stmt => statement c stmt

/-- Folds the items of a program. -/
def program (c : FoldContext) (items : List Stmt) : Folder (List Stmt) := do
  let items ← items.mapM (constantItem c)
  items.mapM (otherItem c)

end Folder

/-- The result of folding a program. -/
structure Folding where
  /-- The folded program. -/
  program : Program
  /-- What it declares, with known values. -/
  defs : Definitions
  /-- The errors. -/
  errors : List Diagnostic

/-- Folds a program. -/
def Program.fold (catalog : Catalog) (types : TypeTable) (pictures : Pictures)
    (defs : Definitions) (program : Program) : Folding :=
  let c : FoldContext := { catalog, types, pictures, defs }
  let (statements, s) := (Folder.program c program.statements).run { defs }
  ⟨⟨statements, program.nextId⟩, s.defs, s.errors⟩

end BlockScript
