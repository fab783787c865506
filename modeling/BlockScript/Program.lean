import BlockScript.Expr

/-!
# Statements and programs

A program is a list of items: declarations, event handlers and functions. Bodies of handlers,
functions, branches and loops are lists of statements.
-/

namespace BlockScript

/-- A parameter of a function. -/
structure Parameter where
  /-- The name. -/
  name : String
  /-- The type. -/
  type : DataType
  /-- The place of the name. -/
  span : Span
  deriving DecidableEq

/-- Where an event comes from. -/
inductive EventKind where
  /-- An event of the catalog. -/
  | builtin
  /-- An event that the program declares and broadcasts. -/
  | custom
  /-- The start of the program, as the handler that runs the initializers. -/
  | startup
  deriving DecidableEq

/-- How often a loop runs. -/
inductive LoopKind where
  | forever
  | times (count : Expr)
  | until (condition : Expr)

/-- A statement, or an item of a program. -/
inductive Stmt where
  /-- A variable or a list. It is hoisted once its initializer has become an assignment. -/
  | varDecl (name : String) (type : Option DataType) (value : Option Expr) (hoisted : Bool)
      (span : Span)
  | constDecl (name : String) (type : Option DataType) (value : Expr) (span : Span)
  | funcDecl (name : String) (params : List Parameter) (body : List Stmt) (span : Span)
      (endLine : Nat)
  | event (kind : EventKind) (name : String) (param : Option Expr) (body : List Stmt) (span : Span)
      (endLine : Nat)
  | call (name : String) (args : List Expr) (span : Span)
  | assign (target : String) (op : AssignOp) (value : Expr) (span : Span)
  | branch (condition : Expr) (thenBody elseBody : List Stmt) (span : Span)
  | loop (kind : LoopKind) (body : List Stmt) (span : Span)

/-- The place of a statement; bodies do not count. -/
def Stmt.span : Stmt → Span
  | .varDecl _ _ _ _ span | .constDecl _ _ _ span | .funcDecl _ _ _ span _
  | .event _ _ _ _ span _ | .call _ _ span | .assign _ _ _ span | .branch _ _ _ span
  | .loop _ _ span => span

/-- A program, with the next free number for expression nodes. -/
structure Program where
  /-- The items. -/
  statements : List Stmt
  /-- The next free number. -/
  nextId : Nat

end BlockScript
