import BlockScript.Fault.File

/-!
# Lines of a source file

A source is a list of lines. A line ends with a line feed, which is not part of it; a carriage
return before the line feed is not part of it either, nor is one more carriage return at its end. A
line whose bytes are not UTF-8 cannot be read.
-/

namespace BlockScript

/-- A line of a source file. -/
inductive SourceLine where
  /-- The characters of the line, of which none ends it. -/
  | text (chars : List Char) (oneLine : '\n' ∉ chars)
  /-- A line that cannot be read. -/
  | unreadable (fault : FileFault)
  deriving DecidableEq

/-- The line with some characters. They are no text if one of them ends a line. -/
def SourceLine.ofChars (chars : List Char) : SourceLine :=
  if h : '\n' ∈ chars then .unreadable .invalidText else .text chars h

/-- The characters of a line that can be read. -/
def SourceLine.chars? : SourceLine → Option (List Char)
  | .text chars _ => some chars
  | .unreadable _ => none

/-- A source file, line by line. -/
abbrev Source := List SourceLine

namespace Source

/-- Cuts a list after every separator. Each piece comes without its separator, and with whether it
had one; only the last piece may have none, and then it is not empty. -/
def pieces {α : Type} [DecidableEq α] (separator : α) : List α → List (List α × Bool)
  | [] => []
  | x :: rest =>
    if x = separator then ([], true) :: pieces separator rest
    else match pieces separator rest with
      | [] => [([x], false)]
      | (piece, ended) :: more => (x :: piece, ended) :: more

/-- A line without a carriage return at its end. -/
def dropReturn (chars : List Char) : List Char :=
  if chars.getLast? = some '\r' then chars.dropLast else chars

/-- The line made of the characters before a line feed, or before the end of the file. -/
def lineOf (chars : List Char) (ended : Bool) : SourceLine :=
  .ofChars (if ended then dropReturn (dropReturn chars) else dropReturn chars)

/-- The lines of a text. -/
def ofText (text : String) : Source :=
  (pieces '\n' text.toList).map fun piece => lineOf piece.1 piece.2

/-- The lines of a file, given by its bytes. -/
def ofBytes (bytes : List UInt8) : Source :=
  (pieces 10 bytes).map fun piece =>
    match String.fromUTF8? ⟨piece.1.toArray⟩ with
    | some text => lineOf text.toList piece.2
    | none => .unreadable .invalidText

end Source

end BlockScript
