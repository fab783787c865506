import BlockScript.Source.Span
import BlockScript.Value

/-!
# Tokens

A token is a word, a sign, a literal or a name of the source, or one of the two marks that end a
line and the input. It keeps its spelling, its place and the indentation of its line.
-/

namespace BlockScript

/-- The reserved words. Three of them can also be written as signs. -/
inductive Keyword where
  | varWord
  | constWord
  | funcWord
  | eventWord
  | ifWord
  | elifWord
  | elseWord
  | loopWord
  | whileWord
  | untilWord
  /-- `and` or `&&`. -/
  | andWord
  /-- `or` or `||`. -/
  | orWord
  /-- `not` or `!`. -/
  | notWord
  | numberType
  | stringType
  | booleanType
  | imageType
  deriving DecidableEq

/-- The signs. -/
inductive Sign where
  | leftParen
  | rightParen
  | leftBracket
  | rightBracket
  | comma
  | dot
  | colon
  | atSign
  | plus
  | plusEq
  | minus
  | minusEq
  | star
  | starEq
  | slash
  | slashEq
  | percent
  | percentEq
  | less
  | greater
  | lessEq
  | greaterEq
  | equal
  | notEqual
  | assign
  deriving DecidableEq

namespace Token

/-- What a token is. -/
inductive Kind where
  | literal (value : Value)
  | name (name : String)
  | keyword (word : Keyword)
  | sign (sign : Sign)
  /-- A directive; its name comes without the mark in front of it. -/
  | directive (name : String)
  | newline
  | eof
  deriving DecidableEq

end Token

/-- A token of the source. -/
structure Token where
  /-- What it is. -/
  kind : Token.Kind
  /-- How it is written; the marks that end lines and the input are not written. -/
  lexeme : String
  /-- Where it stands. -/
  span : Span
  /-- The number of blanks at the start of its line. -/
  indent : Nat
  /-- The file it comes from. -/
  path : String
  deriving DecidableEq

/-- Whether a token ends a line. -/
def Token.isNewline (t : Token) : Bool := t.kind == .newline

/-- Whether a token ends the input. -/
def Token.isEof (t : Token) : Bool := t.kind == .eof

/-- Whether a token ends a line or the input. -/
def Token.isBreak (t : Token) : Bool := t.isNewline || t.isEof

/-- The reserved words and how they are written. -/
def Keyword.spellings : List (String × Keyword) :=
  [("var", .varWord), ("const", .constWord), ("func", .funcWord), ("event", .eventWord),
    ("if", .ifWord), ("elif", .elifWord), ("else", .elseWord), ("loop", .loopWord),
    ("while", .whileWord), ("until", .untilWord), ("and", .andWord), ("or", .orWord),
    ("not", .notWord), ("number", .numberType), ("string", .stringType),
    ("boolean", .booleanType), ("image", .imageType)]

/-- The token of a word: a truth value, a reserved word, or else a name. -/
def Token.Kind.ofWord (word : String) : Token.Kind :=
  if word = "true" then .literal (.boolean true)
  else if word = "false" then .literal (.boolean false)
  else match Keyword.spellings.lookup word with
    | some reserved => .keyword reserved
    | none => .name word

end BlockScript
