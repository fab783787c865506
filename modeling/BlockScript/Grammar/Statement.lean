import BlockScript.Grammar.Expression

/-!
# The grammar of statements and items

A body is one statement on the line of its header, or the lines after it that are indented deeper
than the header. The first of these lines fixes their indentation. A faulty line is reported and
passed, together with the lines below it that are indented deeper.

The parser of a nested statement is a parameter of the others. It is used only after a token has
been passed, so the number of tokens bounds the depth of nesting.
-/

namespace BlockScript

/-- The negation of a condition. A negation is stripped, also under parentheses, and not doubled. A
new node is numbered `next`. -/
def Expr.inverted (next : Nat) : Expr → Expr × Nat
  | .not _ operand => (operand, next)
  | .group tag inner =>
    match inner.ungrouped with
    | .not _ _ => inner.inverted next
    | _ => (.not ⟨next, tag.span⟩ (.group tag inner), next + 1)
  | e => (.not ⟨next, e.span⟩ e, next + 1)

/-- The operator of an assignment. -/
def Sign.assignOp? : Sign → Option AssignOp
  | .assign => some .set
  | .plusEq => some .add
  | .minusEq => some .sub
  | .starEq => some .mul
  | .slashEq => some .div
  | .percentEq => some .mod
  | _ => none

namespace Parser

/-- A type. -/
def typeName : Parser DataType := do
  let c ← get
  let scalar? := match c.kind? with
    | some (.keyword word) => word.type?
    | _ => none
  match scalar? with
  | none => failExpected .typeName
  | some scalar =>
    let start ← pass
    if ← accept (.sign .leftBracket) then
      let stop ← expect (.sign .rightBracket) .listTypeEnd
      match scalar.listOf? with
      | some list => return list
      | none => throw (.parse (.unsupportedList scalar) (start.merge stop))
    else return scalar

/-- A type after a colon, if there is a colon. -/
def typeAnnotation : Parser (Option DataType) := do
  if ← accept (.sign .colon) then return some (← typeName) else return none

/-- The declaration of a variable or a list. -/
def variableDecl : Parser Stmt := do
  let start ← pass
  let (name, nameSpan) ← expectName .variableName
  let type ← typeAnnotation
  let value ← if ← accept (.sign .assign) then some <$> expression else pure none
  expectLineEnd
  return .varDecl name type value false (start.merge ((value.map Expr.span).getD nameSpan))

/-- The declaration of a constant. -/
def constantDecl : Parser Stmt := do
  let start ← pass
  let (name, _) ← expectName .constantName
  let type ← typeAnnotation
  let _ ← expect (.sign .assign) .constantValue
  let value ← expression
  expectLineEnd
  return .constDecl name type value (start.merge value.span)

/-- A call, or an assignment. -/
def callOrAssignment : Parser Stmt := do
  let (name, nameSpan) ← dottedName
  let op? := match (← get).kind? with
    | some (.sign sign) => sign.assignOp?
    | _ => none
  if ← sees (.sign .leftParen) then
    let (args, stop) ← arguments expression
    expectLineEnd
    return .call name args (nameSpan.merge stop)
  match op? with
  | none => failExpected (.callOrAssignment name)
  | some op =>
    let _ ← pass
    let value ← expression
    expectLineEnd
    return .assign name op value (nameSpan.merge value.span)

/-- The lines of a body that is indented by `column` under a header that is indented by `header`, in
at most as many steps as the second number says. -/
def bodyLines (stmt : Parser Stmt) (header column : Nat) : Nat → Parser (List Stmt)
  | 0 => return []
  | steps + 1 => do
    let c ← get
    if c.rest.isEmpty || c.indent ≤ header then return []
    if c.indent ≠ column then
      set ((c.report (.parse (.unevenIndentation column c.indent) c.span)).recover column)
      bodyLines stmt header column steps
    else
      let first ← recovering stmt column
      let more ← bodyLines stmt header column steps
      return first.toList ++ more

/-- A body under a header that is indented by `header`. -/
def body (stmt : Parser Stmt) (header : Nat) : Parser (List Stmt) := do
  let colon ← expect (.sign .colon) .bodyStart
  let c ← get
  if !c.rest.isEmpty && c.kind? != some .newline then return [← stmt]
  let _ ← accept .newline
  let c ← get
  if c.rest.isEmpty || c.indent ≤ header then
    set (c.report (.parse .missingBody colon))
    return []
  bodyLines stmt header c.indent c.rest.length

/-- A chain of conditions, at most `steps` of them. A further condition becomes the only statement
of the other branch. -/
def conditional (stmt : Parser Stmt) : Nat → Parser Stmt
  | 0 => failExpected .statement
  | steps + 1 => do
    let indent := (← get).indent
    let start ← pass
    let condition ← expression
    let thenBody ← body stmt indent
    let c ← get
    let elseBody ←
      if c.kind? == some (.keyword .elifWord) && c.indent == indent then
        (fun nested => [nested]) <$> conditional stmt steps
      else if c.kind? == some (.keyword .elseWord) && c.indent == indent then do
        let _ ← pass
        body stmt indent
      else pure []
    return .branch condition thenBody elseBody (start.merge condition.span)

/-- A loop. Running while a condition holds is running until its negation does. -/
def loopStatement (stmt : Parser Stmt) (word : Keyword) : Parser Stmt := do
  let indent := (← get).indent
  let start ← pass
  if word = .loopWord && (← sees (.sign .colon)) then
    return .loop .forever (← body stmt indent) start
  let header ← expression
  let span := start.merge header.span
  let kind ← match word with
    | .loopWord => pure (.times header)
    | .untilWord => pure (.until header)
    | _ => LoopKind.until <$> building header.inverted
  return .loop kind (← body stmt indent) span

/-- A statement with at most `depth` levels of nesting. -/
def statementAt : Nat → Parser Stmt
  | 0 => failExpected .statement
  | depth + 1 => do
    match (← get).kind? with
    | some (.name _) => callOrAssignment
    | some (.keyword word) =>
      match word with
      | .varWord => variableDecl
      | .constWord => constantDecl
      | .ifWord => conditional (statementAt depth) (← remaining)
      | .loopWord | .whileWord | .untilWord => loopStatement (statementAt depth) word
      | .eventWord | .funcWord => fail .nestedItem
      | .elifWord | .elseWord => fail (.looseBranch (← get).found)
      | _ => failExpected .statement
    | some (.sign .atSign) => fail .nestedItem
    | _ => failExpected .statement

/-- A statement. -/
def statement : Parser Stmt := do statementAt (← remaining)

/-- A handler for an event of the catalog. -/
def handler : Parser Stmt := do
  let indent := (← get).indent
  let start ← pass
  let (name, nameSpan) ← expectName .handlerName
  let param ← if ← sees (.sign .colon) then pure none else some <$> expression
  let lines ← body statement indent
  return .event .builtin name param lines (start.merge ((param.map Expr.span).getD nameSpan))
    (← get).lastLine

/-- The declaration of an event with its handler. -/
def eventDecl : Parser Stmt := do
  let indent := (← get).indent
  let start ← pass
  let (name, nameSpan) ← expectName .eventName
  let lines ← body statement indent
  return .event .custom name none lines (start.merge nameSpan) (← get).lastLine

/-- A parameter of a function. -/
def parameter : Parser Parameter := do
  let (name, span) ← expectName .parameterName
  let _ ← expect (.sign .colon) .parameterType
  return ⟨name, ← typeName, span⟩

/-- The parameters of a function, at most `steps + 1` of them. -/
def parameterList : Nat → Parser (List Parameter)
  | 0 => return [← parameter]
  | steps + 1 => do
    let first ← parameter
    if ← accept (.sign .comma) then return first :: (← parameterList steps)
    else return [first]

/-- The declaration of a function. -/
def functionDecl : Parser Stmt := do
  let indent := (← get).indent
  let start ← pass
  let (name, _) ← expectName .functionName
  let _ ← expect (.sign .leftParen) .parameterStart
  let params ← if ← sees (.sign .rightParen) then pure [] else parameterList (← remaining)
  let stop ← expect (.sign .rightParen) .parameterEnd
  let lines ← body statement indent
  return .funcDecl name params lines (start.merge stop) (← get).lastLine

/-- An item of a program. -/
def item : Parser Stmt := do
  match (← get).kind? with
  | some (.sign .atSign) => handler
  | some (.keyword .eventWord) => eventDecl
  | some (.keyword .varWord) => variableDecl
  | some (.keyword .constWord) => constantDecl
  | some (.keyword .funcWord) => functionDecl
  | _ => fail (.notAnItem (← get).found)

/-- The items of a program, in at most `steps` steps. -/
def items : Nat → Parser (List Stmt)
  | 0 => return []
  | steps + 1 => do
    let c ← get
    if c.rest.isEmpty then return []
    if ← accept .newline then items steps
    else if 0 < c.indent then
      set ((c.report (.parse .indentedItem c.span)).recover 0)
      items steps
    else
      let first ← recovering item 0
      let more ← items steps
      return first.toList ++ more

end Parser

/-- The result of parsing. -/
structure Parsed where
  /-- The program, without the statements at fault. -/
  program : Program
  /-- The errors, in the order in which they were met. -/
  errors : List Diagnostic

/-- Parses a token list. -/
def parse (tokens : List Token) : Parsed :=
  let cursor := Cursor.ofTokens tokens
  match Parser.items cursor.rest.length cursor with
  | .ok statements c => ⟨⟨statements, c.nextId⟩, c.errors⟩
  | .error d c => ⟨⟨[], c.nextId⟩, c.errors ++ [d]⟩

end BlockScript
