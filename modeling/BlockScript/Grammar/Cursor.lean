import BlockScript.Diagnostic
import BlockScript.Program
import BlockScript.Token

/-!
# Parsers over tokens

A parser reads tokens from a cursor, hands out numbers for expression nodes, collects errors, and
either returns a result or fails with a diagnostic. A failure leaves the cursor where it is, so that
the statement around it can report the diagnostic and go on behind the lines at fault.
-/

namespace BlockScript

/-- What a parser has before it, and what it has produced so far. -/
structure Cursor where
  /-- The tokens before the end of the input that are not passed yet. -/
  rest : List Token
  /-- The place of the end of the input. -/
  ending : Span
  /-- The line of the last token passed that does not end a line. -/
  lastLine : Nat := 0
  /-- The next free number for expression nodes. -/
  nextId : Nat := 0
  /-- The errors reported so far, the oldest first. -/
  errors : List Diagnostic := []

namespace Cursor

/-- The cursor before a token list. What follows the first end of the input does not count. -/
def ofTokens (tokens : List Token) : Cursor where
  rest := tokens.takeWhile (!·.isEof)
  ending := match tokens.find? (·.isEof), tokens.getLast? with
    | some t, _ => t.span
    | none, some t => t.span
    | none, none => .nowhere

/-- What the next token is; nothing at the end of the input. -/
def kind? (c : Cursor) : Option Token.Kind := c.rest.head?.map (·.kind)

/-- The place of the next token, or of the end of the input. -/
def span (c : Cursor) : Span := (c.rest.head?.map (·.span)).getD c.ending

/-- The indentation of the next token. -/
def indent (c : Cursor) : Nat := (c.rest.head?.map (·.indent)).getD 0

/-- What stands at the cursor, for error messages. -/
def found (c : Cursor) : Found :=
  match c.rest with
  | [] => .inputEnd
  | t :: _ => if t.isNewline then .lineEnd else .lexeme t.lexeme

/-- Passes the next token. -/
def advance (c : Cursor) : Cursor :=
  match c.rest with
  | [] => c
  | t :: rest => { c with rest, lastLine := if t.isNewline then c.lastLine else t.span.start.line }

/-- Passes lines that are indented deeper than `indent`. If `inLine`, the rest of the current line
is passed first, whatever its indentation. The result is the line of the last token passed and the
tokens that are left. -/
def skipLines (indent : Nat) : Bool → Nat → List Token → Nat × List Token
  | _, lastLine, [] => (lastLine, [])
  | inLine, lastLine, t :: rest =>
    if inLine || indent < t.indent then
      if t.isNewline then skipLines indent false lastLine rest
      else skipLines indent true t.span.start.line rest
    else (lastLine, t :: rest)

/-- Goes on after a faulty line: passes the rest of it, and every line after it that is indented
deeper than `indent`. -/
def recover (c : Cursor) (indent : Nat) : Cursor :=
  let (lastLine, rest) := skipLines indent true c.lastLine c.rest
  { c with lastLine, rest }

/-- Adds an error. -/
def report (c : Cursor) (d : Diagnostic) : Cursor := { c with errors := c.errors ++ [d] }

end Cursor

/-- A parser: it moves a cursor and returns a result or a diagnostic. -/
abbrev Parser := EStateM Diagnostic Cursor

namespace Parser

/-- Fails at the cursor. -/
def fail {α : Type} (fault : SyntaxFault) : Parser α := do
  throw (.parse fault (← get).span)

/-- Fails because something else was expected at the cursor. -/
def failExpected {α : Type} (what : Expectation) : Parser α := do
  fail (.expected what (← get).found)

/-- Passes the next token and returns its place. -/
def pass : Parser Span := modifyGet fun c => (c.span, c.advance)

/-- Whether the next token is of a kind. -/
def sees (kind : Token.Kind) : Parser Bool := do
  return (← get).kind? == some kind

/-- Passes the next token if it is of a kind. -/
def accept (kind : Token.Kind) : Parser Bool := do
  if ← sees kind then
    let _ ← pass
    return true
  else return false

/-- Passes a token of a kind, or fails. -/
def expect (kind : Token.Kind) (what : Expectation) : Parser Span := do
  if ← sees kind then pass else failExpected what

/-- Passes a name, or fails. -/
def expectName (what : Expectation) : Parser (String × Span) := do
  match (← get).kind? with
  | some (.name name) => return (name, ← pass)
  | _ => failExpected what

/-- Passes the end of a line; the end of the input ends a line too. -/
def expectLineEnd : Parser Unit := do
  if (← get).rest.isEmpty then return
  if ← accept .newline then return
  failExpected .lineEnd

/-- A new number for an expression node. -/
def fresh : Parser Nat := modifyGet fun c => (c.nextId, { c with nextId := c.nextId + 1 })

/-- The tag of a new expression node. -/
def freshTag (span : Span) : Parser Tag := do
  return ⟨← fresh, span⟩

/-- How many tokens are left. -/
def remaining : Parser Nat := do
  return (← get).rest.length

/-- Runs a parser. If it fails, its diagnostic is reported, the lines at fault are passed, and there
is no result. -/
def recovering {α : Type} (p : Parser α) (indent : Nat) : Parser (Option α) := fun c =>
  match p c with
  | .ok a c => .ok (some a) c
  | .error d c => .ok none ((c.report d).recover indent)

end Parser

end BlockScript
