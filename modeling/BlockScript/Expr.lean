import BlockScript.Operator
import BlockScript.Source.Span
import BlockScript.Value

/-!
# Expressions

Every node of an expression carries a tag: a number that identifies it within its program, and its
place in the source. Parentheses are kept as nodes of their own.
-/

namespace BlockScript

/-- The identity and the place of an expression node. -/
structure Tag where
  /-- The number of the node. -/
  id : Nat
  /-- Its place in the source. -/
  span : Span
  deriving DecidableEq

/-- An expression. -/
inductive Expr where
  /-- A variable, list, constant, parameter or property; names of properties have dots. -/
  | ident (tag : Tag) (name : String)
  | literal (tag : Tag) (value : Value)
  | call (tag : Tag) (callee : String) (args : List Expr)
  | cast (tag : Tag) (target : DataType) (operand : Expr)
  | list (tag : Tag) (items : List Expr)
  | not (tag : Tag) (operand : Expr)
  | binary (tag : Tag) (op : BinaryOp) (left right : Expr)
  /-- An expression in parentheses. -/
  | group (tag : Tag) (inner : Expr)

namespace Expr

/-- The tag of the outermost node. -/
def tag : Expr → Tag
  | .ident tag _ | .literal tag _ | .call tag _ _ | .cast tag _ _ | .list tag _ | .not tag _
  | .binary tag _ _ _ | .group tag _ => tag

/-- The number of the outermost node. -/
def id (e : Expr) : Nat := e.tag.id

/-- The place of an expression. -/
def span (e : Expr) : Span := e.tag.span

/-- The expression without the parentheses around it. -/
def ungrouped : Expr → Expr
  | .group _ inner => inner.ungrouped
  | e => e

/-- The value of a literal, also in parentheses. -/
def value? (e : Expr) : Option Value :=
  match e.ungrouped with
  | .literal _ value => some value
  | _ => none

/-- The items of a list literal, also in parentheses. -/
def items? (e : Expr) : Option (List Expr) :=
  match e.ungrouped with
  | .list _ items => some items
  | _ => none

/-- The name that an expression consists of, also in parentheses. -/
def name? (e : Expr) : Option String :=
  match e.ungrouped with
  | .ident _ name => some name
  | _ => none

mutual

/-- A copy of an expression whose nodes are numbered from `next` on, each after those below it. The
result includes the next free number. -/
def copy (next : Nat) : Expr → Expr × Nat
  | .ident tag name => (.ident { tag with id := next } name, next + 1)
  | .literal tag value => (.literal { tag with id := next } value, next + 1)
  | .call tag callee args =>
    let (args, next) := copyAll next args
    (.call { tag with id := next } callee args, next + 1)
  | .cast tag target operand =>
    let (operand, next) := copy next operand
    (.cast { tag with id := next } target operand, next + 1)
  | .list tag items =>
    let (items, next) := copyAll next items
    (.list { tag with id := next } items, next + 1)
  | .not tag operand =>
    let (operand, next) := copy next operand
    (.not { tag with id := next } operand, next + 1)
  | .binary tag op left right =>
    let (left, next) := copy next left
    let (right, next) := copy next right
    (.binary { tag with id := next } op left right, next + 1)
  | .group tag inner =>
    let (inner, next) := copy next inner
    (.group { tag with id := next } inner, next + 1)

/-- Copies of several expressions, numbered one after the other. -/
def copyAll (next : Nat) : List Expr → List Expr × Nat
  | [] => ([], next)
  | e :: rest =>
    let (e, next) := copy next e
    let (rest, next) := copyAll next rest
    (e :: rest, next)

end

end Expr

end BlockScript
