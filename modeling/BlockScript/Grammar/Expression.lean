import BlockScript.Grammar.Cursor

/-!
# The grammar of expressions

Binary operators form tiers, from the loosest to the tightest; each tier associates to the left.
Below the tiers stand the prefix operators, and below them literals, names, calls, casts, lists and
parentheses. Some operators are spelled out with others:

* `a <= b` is `a < b or a == b`, and `a >= b` is `a > b or a == b`, with copies of the operands,
* `a != b` is `not (a == b)`,
* `-e` is a literal if `e` is one, and `-1 * e` otherwise.

The parser of a nested expression is a parameter of the others. It is used only after a token has
been passed, so the number of tokens bounds the depth of nesting.
-/

namespace BlockScript

/-- How two operands are joined. -/
inductive Join where
  | plain (op : BinaryOp)
  /-- The operator, or equality. -/
  | orEqual (op : BinaryOp)
  | unequal
  deriving DecidableEq

/-- A binary node over two operands. -/
def Expr.join (id : Nat) (op : BinaryOp) (left right : Expr) : Expr :=
  .binary ⟨id, left.span.merge right.span⟩ op left right

/-- Joins two operands with nodes that are numbered from `next` on. The result includes the next
free number. -/
def Join.build (next : Nat) (left right : Expr) : Join → Expr × Nat
  | .plain op => (.join next op left right, next + 1)
  | .orEqual op =>
    let (leftCopy, next) := left.copy next
    let (rightCopy, next) := right.copy next
    let strict := Expr.join next op left right
    let equal := Expr.join (next + 1) .eq leftCopy rightCopy
    (.join (next + 2) .or strict equal, next + 3)
  | .unequal =>
    let equal := Expr.join next .eq left right
    (.not ⟨next + 1, equal.span⟩ equal, next + 2)

/-- The operators of a tier. -/
abbrev Tier := Token.Kind → Option Join

/-- The tiers of binary operators, the loosest first. -/
def tiers : List Tier :=
  [fun
    | .keyword .orWord => some (.plain .or)
    | _ => none,
  fun
    | .keyword .andWord => some (.plain .and)
    | _ => none,
  fun
    | .sign .equal => some (.plain .eq)
    | .sign .notEqual => some .unequal
    | _ => none,
  fun
    | .sign .less => some (.plain .lt)
    | .sign .greater => some (.plain .gt)
    | .sign .lessEq => some (.orEqual .lt)
    | .sign .greaterEq => some (.orEqual .gt)
    | _ => none,
  fun
    | .sign .plus => some (.plain .add)
    | .sign .minus => some (.plain .sub)
    | _ => none,
  fun
    | .sign .star => some (.plain .mul)
    | .sign .slash => some (.plain .div)
    | .sign .percent => some (.plain .mod)
    | _ => none]

/-- The type that a reserved word names. -/
def Keyword.type? : Keyword → Option DataType
  | .numberType => some .number
  | .stringType => some .string
  | .booleanType => some .boolean
  | .imageType => some .image
  | _ => none

/-- The negation of an operand, with a node numbered `next` where one is needed. The place of the
minus sign is `start`. -/
def Expr.negated (next : Nat) (start : Span) (operand : Expr) : Expr × Nat :=
  match operand with
  | .literal tag (.number n) =>
    (.literal { tag with span := start.merge tag.span } (.number (-n)), next)
  | operand =>
    let minusOne := Expr.literal ⟨next, start⟩ (.number (-Float.ofScientific 1 false 0))
    (.join (next + 1) .mul minusOne operand, next + 2)

namespace Parser

/-- Builds a node from the next free number on. -/
def building (build : Nat → Expr × Nat) : Parser Expr :=
  modifyGet fun c =>
    let (e, next) := build c.nextId
    (e, { c with nextId := next })

/-- Goes on with the operators of a tier, in at most `steps` steps, each of which passes a token. -/
def tierRest (tier : Tier) (operand : Parser Expr) : Nat → Expr → Parser Expr
  | 0, left => pure left
  | steps + 1, left => do
    match (← get).kind?.bind tier with
    | none => return left
    | some join =>
      let _ ← pass
      let right ← operand
      let joined ← building fun next => join.build next left right
      tierRest tier operand steps joined

/-- Operands of a tier, joined from the left. -/
def tierOf (tier : Tier) (operand : Parser Expr) : Parser Expr := do
  let left ← operand
  tierRest tier operand (← remaining) left

/-- Prefix operators before an operand, at most `steps` of them. -/
def prefixed (operand : Parser Expr) : Nat → Parser Expr
  | 0 => operand
  | steps + 1 => do
    match (← get).kind? with
    | some (.keyword .notWord) =>
      let start ← pass
      let inner ← prefixed operand steps
      return .not (← freshTag (start.merge inner.span)) inner
    | some (.sign .minus) =>
      let start ← pass
      let inner ← prefixed operand steps
      building fun next => inner.negated next start
    | _ => operand

/-- The parts of a dotted name after the first, at most `steps` of them. -/
def memberNames : Nat → String → Span → Parser (String × Span)
  | 0, name, span => return (name, span)
  | steps + 1, name, span => do
    if ← accept (.sign .dot) then
      let (part, partSpan) ← expectName .memberName
      memberNames steps (name ++ "." ++ part) (span.merge partSpan)
    else return (name, span)

/-- Names joined with dots. -/
def dottedName : Parser (String × Span) := do
  let (name, span) ← expectName .name
  memberNames (← remaining) name span

/-- Expressions between commas, at most `steps + 1` of them. A comma before the sign `last` ends the
list. -/
def separated (expr : Parser Expr) (last : Option Sign) : Nat → Parser (List Expr)
  | 0 => return [← expr]
  | steps + 1 => do
    let first ← expr
    if ← accept (.sign .comma) then
      match last with
      | some sign => if ← sees (.sign sign) then return [first]
      | none => pure ()
      return first :: (← separated expr last steps)
    else return [first]

/-- The arguments of a call and the place of the closing parenthesis. -/
def arguments (expr : Parser Expr) : Parser (List Expr × Span) := do
  let _ ← pass
  let args ← if ← sees (.sign .rightParen) then pure [] else separated expr none (← remaining)
  return (args, ← expect (.sign .rightParen) .argumentEnd)

/-- A name, or a call. -/
def nameOrCall (expr : Parser Expr) : Parser Expr := do
  let (name, span) ← dottedName
  if ← sees (.sign .leftParen) then
    let (args, stop) ← arguments expr
    return .call (← freshTag (span.merge stop)) name args
  else return .ident (← freshTag span) name

/-- An expression in parentheses. -/
def grouped (expr : Parser Expr) : Parser Expr := do
  let start ← pass
  let inner ← expr
  let stop ← expect (.sign .rightParen) .groupEnd
  return .group (← freshTag (start.merge stop)) inner

/-- A list literal; a comma may follow the last item. -/
def listLiteral (expr : Parser Expr) : Parser Expr := do
  let start ← pass
  let items ←
    if ← sees (.sign .rightBracket) then pure []
    else separated expr (some .rightBracket) (← remaining)
  let stop ← expect (.sign .rightBracket) .listEnd
  return .list (← freshTag (start.merge stop)) items

/-- A cast. -/
def castTo (expr : Parser Expr) (target : DataType) : Parser Expr := do
  let start ← pass
  let _ ← expect (.sign .leftParen) (.castStart target)
  let operand ← expr
  let stop ← expect (.sign .rightParen) .castEnd
  return .cast (← freshTag (start.merge stop)) target operand

/-- An expression without operators outside of brackets. -/
def primary (expr : Parser Expr) : Parser Expr := do
  match (← get).kind? with
  | some (.literal value) =>
    let span ← pass
    return .literal (← freshTag span) value
  | some (.name _) => nameOrCall expr
  | some (.sign .leftParen) => grouped expr
  | some (.sign .leftBracket) => listLiteral expr
  | some (.keyword word) =>
    match word.type? with
    | some target => castTo expr target
    | none => failExpected .expression
  | _ => failExpected .expression

/-- An expression with at most `depth` levels of nesting. -/
def expressionAt : Nat → Parser Expr
  | 0 => failExpected .expression
  | depth + 1 =>
    tiers.foldr tierOf (do prefixed (primary (expressionAt depth)) (← remaining))

/-- An expression. -/
def expression : Parser Expr := do expressionAt (← remaining)

end Parser

end BlockScript
