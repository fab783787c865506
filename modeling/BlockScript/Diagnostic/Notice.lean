import BlockScript.Diagnostic

/-!
# Notices

A notice is a diagnostic as its reader sees it: a stage, a severity, a text and a place. It has a
form of one line and a form with an excerpt of the source, in which carets mark the place.
-/

namespace BlockScript

/-- A diagnostic as its reader sees it. -/
structure Notice where
  /-- The stage that reports it. -/
  stage : Stage
  /-- How serious it is. -/
  severity : Severity
  /-- The text. -/
  message : String
  /-- The place. -/
  span : Span
  /-- The file, if it is known. -/
  path : Option String

/-- The notice of a diagnostic. -/
def Diagnostic.notice (d : Diagnostic) : Notice :=
  ⟨d.stage, d.severity, d.message, d.span, d.path⟩

namespace Notice

/-- Whether the notice is an error. -/
def isError (n : Notice) : Bool := n.severity == .error

/-- The notice in one line. -/
def short (n : Notice) : String :=
  "[" ++ n.stage.label ++ "] line " ++ toString n.span.start.line ++ ":" ++
    toString n.span.start.column ++ ": " ++ n.message

/-- A text of equal characters. -/
def run (c : Char) (n : Nat) : String := String.ofList (List.replicate n c)

/-- A text with spaces before it, up to a width. -/
def padLeft (width : Nat) (text : String) : String := run ' ' (width - text.length) ++ text

/-- The columns of a line that lie in a span, counted from zero: the first one, and the one after
the last. At least one column is marked. -/
def marked (span : Span) (line width : Nat) : Nat × Nat :=
  let first := if line = span.start.line then span.start.column - 1 else 0
  let last := if line = span.stop.line then span.stop.column - 1 else width
  (first, Nat.max last (first + 1))

/-- A line of the source and the line of carets below it. -/
def excerptLine (gutter : Nat) (span : Span) (line : Nat) (text : String) : String :=
  let (first, last) := marked span line text.length
  padLeft gutter (toString line) ++ " | " ++ text ++ "\n" ++
    run ' ' gutter ++ " | " ++ run ' ' first ++ run '^' (last - first) ++ "\n"

/-- The last line that a span reaches. -/
def lastLine (span : Span) : Nat := Nat.max span.stop.line span.start.line

/-- The lines of a span as far as the source has them, with their numbers. -/
def excerpted (span : Span) (lines : List String) : List (Nat × String) :=
  if span.start.line = 0 then []
  else
    let texts := (lines.drop (span.start.line - 1)).take (lastLine span + 1 - span.start.line)
    (List.range' span.start.line texts.length).zip texts

/-- The notice with an excerpt of the source. -/
def render (n : Notice) (lines : List String) : String :=
  let gutter := (toString (lastLine n.span)).length
  n.severity.label ++ "[" ++ n.stage.label ++ "]: " ++ n.message ++ "\n" ++
    "  --> " ++ n.path.getD "<input>" ++ ":" ++ toString n.span.start.line ++ ":" ++
      toString n.span.start.column ++ "\n" ++
    run ' ' gutter ++ " |\n" ++
    String.join ((excerpted n.span lines).map fun (line, text) =>
      excerptLine gutter n.span line text)

end Notice

end BlockScript
