import BlockScript.Typing.Statement

/-!
# Analysis of programs

A program is analyzed in passes. First the name of every item is announced, so that bodies may call
functions that come later. Then the variables and constants of the outermost level are declared in
order, and after them the bodies of handlers and functions are analyzed. The initializers of the
outermost variables become the body of a handler for the start of the program.
-/

namespace BlockScript

/-- The event that runs the initializers. -/
def startupEvent : String := "start"

/-- An item after the declarations of the outermost level have been analyzed. -/
inductive Staged where
  /-- An item with nothing left to analyze. -/
  | settled (stmt : Stmt)
  /-- An item whose body is to be analyzed. -/
  | pending (stmt : Stmt)

namespace Analyzer

/-- Analyzes the declaration of an item that counts. The result includes the assignment of its
initializer, if it has become one. -/
def declareItem (scope : Scope) : Stmt → Analyzer (Staged × List Stmt)
  | .varDecl name type value hoisted span => do
    modify fun s => { s with pending := s.pending.erase name }
    let (decl, assign) ← declareVariable scope name type value hoisted span
    return (.settled decl, assign.toList)
  | .constDecl name type value span => do
    modify fun s => { s with pending := s.pending.erase name }
    declareConstant scope name type value span
    return (.settled (.constDecl name type value span), [])
  | stmt => return (.pending stmt, [])

/-- Analyzes the declarations of items, with the results of their announcement. The result includes
the assignments of initializers, in order. -/
def declareItems (scope : Scope) : List (Stmt × Bool) → Analyzer (List Staged × List Stmt)
  | [] => return ([], [])
  | (stmt, counts) :: rest => do
    let (first, assigns) ←
      if counts then declareItem scope stmt else pure (.settled stmt, [])
    let (more, moreAssigns) ← declareItems scope rest
    return (first :: more, assigns ++ moreAssigns)

/-- Checks the parameter of an event of the catalog. -/
def checkEvent (scope : Scope) (name : String) (param : Option Expr) (span : Span) :
    Analyzer Unit := do
  match scope.catalog.hat? name with
  | none => reportFault (.unknownEvent name) span
  | some signature =>
    match signature.params.head?, param with
    | none, none => return
    | some spec, none => reportFault (.missingEventParameter name spec.name) span
    | none, some arg => reportFault (.extraEventParameter name) arg.span
    | some spec, some arg =>
      if let some found := ← reporting (exprType scope arg) then
        if found = spec.type then checkOption ("@" ++ name) spec arg
        else reportFault (.eventParameterMismatch name spec.type spec.name found) arg.span

/-- Analyzes the body of an item. -/
def itemBody (scope : Scope) : Staged → Analyzer Stmt
  | .settled stmt => return stmt
  | .pending (.funcDecl name params body span endLine) => do
    let body ← statements { scope with function := some name } false body
    return .funcDecl name params body span endLine
  | .pending (.event kind name param body span endLine) => do
    if kind ≠ .custom then checkEvent scope name param span
    let body ← statements scope false body
    return .event kind name param body span endLine
  | .pending stmt => return stmt

/-- The handler that runs the initializers, if there are any. -/
def startupHandler (assigns : List Stmt) : List Stmt :=
  if assigns.isEmpty then []
  else [.event .startup startupEvent none assigns .nowhere 0]

/-- Warns about everything that is never used. -/
def warnUnused (scope : Scope) : Analyzer Unit := do
  if scope.options.warnUnused then
    for (kind, name, span) in (← defs).unused do
      warn (.unused kind name) span

/-- Analyzes the items of a program. -/
def program (scope : Scope) (items : List Stmt) : Analyzer (List Stmt) := do
  let counts ← items.mapM (announce scope)
  let (staged, assigns) ← declareItems scope (items.zip counts)
  let analyzed ← staged.mapM (itemBody scope)
  warnUnused scope
  return startupHandler assigns ++ analyzed

end Analyzer

/-- The result of analyzing a program. -/
structure Analysis where
  /-- The program with hoisted initializers. -/
  program : Program
  /-- What it declares. -/
  defs : Definitions
  /-- The types of its expressions. -/
  types : TypeTable
  /-- The warnings. -/
  warnings : List Diagnostic
  /-- The errors. -/
  errors : List Diagnostic

/-- Analyzes a program. -/
def analyze (catalog : Catalog) (options : AnalysisOptions) (program : Program) : Analysis :=
  match Analyzer.program { catalog, options } program.statements { nextId := program.nextId } with
  | .ok statements s =>
    ⟨⟨statements, s.nextId⟩, s.defs, s.types, s.warnings, s.errors⟩
  | .error d s =>
    ⟨⟨program.statements, s.nextId⟩, s.defs, s.types, s.warnings, s.errors ++ [d]⟩

end BlockScript
