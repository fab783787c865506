/-!
# Positions and spans

A position is a line and a column of a source file, both counted from one; columns count
characters. A span runs from its first position to the position just after its last character.
The span with all parts zero belongs to what stands in no file.
-/

namespace BlockScript

/-- A line and a column, both counted from one. -/
structure Position where
  /-- The line. -/
  line : Nat := 0
  /-- The column, in characters. -/
  column : Nat := 0
  deriving DecidableEq, Inhabited

namespace Position

/-- The order of positions in a file: by line, then by column. -/
def precedes (a b : Position) : Bool :=
  a.line < b.line || (a.line == b.line && a.column ≤ b.column)

/-- The earlier of two positions. -/
def min (a b : Position) : Position := if a.precedes b then a else b

/-- The later of two positions. -/
def max (a b : Position) : Position := if a.precedes b then b else a

end Position

/-- The part of a file from `start` up to, and without, `stop`. -/
structure Span where
  /-- The first position. -/
  start : Position := {}
  /-- The position after the last character. -/
  stop : Position := {}
  deriving DecidableEq, Inhabited

namespace Span

/-- The span of what stands in no file. -/
def nowhere : Span := {}

/-- The empty span at a position. -/
def point (p : Position) : Span := ⟨p, p⟩

/-- The part of one line from a start column up to a stop column. -/
def onLine (line start stop : Nat) : Span := ⟨⟨line, start⟩, ⟨line, stop⟩⟩

/-- The smallest span that covers both. -/
def merge (a b : Span) : Span := ⟨a.start.min b.start, a.stop.max b.stop⟩

end Span

end BlockScript
