import BlockScript.Decimal.Reading
import BlockScript.Diagnostic
import BlockScript.Source.Line
import BlockScript.Text.Numeric
import BlockScript.Token

/-!
# Scanning

Cutting the lines of a source into tokens. A line is scanned from left to right; what carries over
from one line to the next is the depth of nested block comments, the number of open brackets and the
first indentation character of the file. Scanning stops at the first fault and keeps the tokens
found before it.
-/

namespace BlockScript

/-- A sign of one character that no other sign starts with. -/
def Sign.single? : Char → Option Sign
  | '(' => some .leftParen
  | ')' => some .rightParen
  | '[' => some .leftBracket
  | ']' => some .rightBracket
  | ',' => some .comma
  | '.' => some .dot
  | ':' => some .colon
  | '@' => some .atSign
  | _ => none

/-- What a character means alone, and what it means with an equals sign after it. -/
def Sign.paired? : Char → Option (Token.Kind × Token.Kind)
  | '+' => some (.sign .plus, .sign .plusEq)
  | '-' => some (.sign .minus, .sign .minusEq)
  | '*' => some (.sign .star, .sign .starEq)
  | '/' => some (.sign .slash, .sign .slashEq)
  | '%' => some (.sign .percent, .sign .percentEq)
  | '<' => some (.sign .less, .sign .lessEq)
  | '>' => some (.sign .greater, .sign .greaterEq)
  | '=' => some (.sign .assign, .sign .equal)
  | '!' => some (.keyword .notWord, .sign .notEqual)
  | _ => none

/-- A word that is written by doubling a character. -/
def Keyword.doubled? : Char → Option Keyword
  | '&' => some .andWord
  | '|' => some .orWord
  | _ => none

/-- Whether a name can start with a character. -/
def isNameStart (c : Char) : Bool := Text.isAlphabetic c || c == '_'

/-- Whether a name can go on with a character. -/
def isNamePart (c : Char) : Bool := Text.isAlphanumeric c || c == '_'

/-- The lexeme at the start of some characters: its kind and its length, or a fault and the number
of characters that are at fault. -/
abbrev Recognised := Except (ScanFault × Nat) (Token.Kind × Nat)

/-- A number: digits, and a fraction if a point and a digit follow. -/
def recogniseNumber (cs : List Char) : Token.Kind × Nat :=
  let whole := cs.takeWhile Char.isDigit
  let fraction := match cs.drop whole.length with
    | '.' :: rest => rest.takeWhile Char.isDigit
    | _ => []
  let value := Decimal.nearest (Decimal.digitsValue (whole ++ fraction)) (-(fraction.length : Int))
  (.literal (.number value), whole.length + if fraction.isEmpty then 0 else fraction.length + 1)

/-- A text between quotes on one line. -/
def recogniseText (rest : List Char) : Recognised :=
  let body := rest.takeWhile (· != '"')
  if body.length = rest.length then .error (.unterminatedText, rest.length + 1)
  else .ok (.literal (.string (String.ofList body)), body.length + 2)

/-- A directive, after its mark. -/
def recogniseDirective (rest : List Char) : Recognised :=
  let name := rest.takeWhile isNamePart
  if name.isEmpty then .error (.namelessDirective, 1)
  else .ok (.directive (String.ofList name), name.length + 1)

/-- The lexeme that starts with `c` and goes on in `rest`. -/
def recognise (c : Char) (rest : List Char) : Recognised :=
  match Sign.single? c, Sign.paired? c, Keyword.doubled? c with
  | some sign, _, _ => .ok (.sign sign, 1)
  | none, some (alone, withEq), _ =>
    .ok (if rest.head? = some '=' then (withEq, 2) else (alone, 1))
  | none, none, some word =>
    if rest.head? = some c then .ok (.keyword word, 2) else .error (.halfOperator c, 1)
  | none, none, none =>
    if c = '#' then recogniseDirective rest
    else if c = '"' then recogniseText rest
    else if c.isDigit then .ok (recogniseNumber (c :: rest))
    else if isNameStart c then
      let word := c :: rest.takeWhile isNamePart
      .ok (.ofWord (String.ofList word), word.length)
    else .error (.unexpectedCharacter c, 1)

/-- The number of open brackets after a token. -/
def bracketsAfter (kind : Token.Kind) (depth : Nat) : Nat :=
  match kind with
  | .sign .leftParen | .sign .leftBracket => depth + 1
  | .sign .rightParen | .sign .rightBracket => depth - 1
  | _ => depth

/-- What carries over from one line to the next. -/
structure ScanState where
  /-- How many block comments are open. -/
  commentDepth : Nat := 0
  /-- Where the outermost open block comment starts. -/
  commentStart : Position := {}
  /-- How many brackets are open. -/
  bracketDepth : Nat := 0
  /-- The first indentation character of the file. -/
  indentMark : Option Char := none

/-- The line that is being scanned. -/
structure LineContext where
  /-- The file. -/
  path : String
  /-- The number of the line. -/
  number : Nat
  /-- The blanks at the start of the line. -/
  leading : List Char
  /-- The number of characters of the line. -/
  width : Nat

/-- The result of scanning a line. -/
structure LineScan where
  /-- The tokens before the fault, or all of them. -/
  tokens : List Token
  /-- What carries over. -/
  state : ScanState
  /-- The first fault. -/
  fault : Option Diagnostic

/-- Puts a token in front. -/
def LineScan.push (token : Token) (scan : LineScan) : LineScan :=
  { scan with tokens := token :: scan.tokens }

namespace LineContext

/-- The part of the line between two columns. -/
def span (line : LineContext) (start stop : Nat) : Span := .onLine line.number start stop

/-- A token of the line. -/
def token (line : LineContext) (kind : Token.Kind) (lexeme : List Char) (span : Span) : Token :=
  ⟨kind, String.ofList lexeme, span, line.leading.length, line.path⟩

/-- Compares indentation characters with the first one of the file, which the first of them becomes
if there is none yet. The result is the column of a character that differs, or the mark. -/
def checkIndent (mark : Option Char) (column : Nat) : List Char → Except Nat (Option Char)
  | [] => .ok mark
  | c :: rest =>
    if mark.getD c = c then checkIndent (some c) (column + 1) rest else .error column

/-- The end of a line: it is marked if the line has tokens and no bracket is open. -/
def finish (line : LineContext) (started : Bool) (state : ScanState) : LineScan :=
  let mark := line.token .newline [] (line.span (line.width + 1) (line.width + 1))
  ⟨if started && state.bracketDepth == 0 then [mark] else [], state, none⟩

/-- Scans the characters of a line from a column on. `started` says whether the line has a token
already. The first argument bounds the number of steps; the number of characters suffices, as every
step passes one. -/
def scanFrom (line : LineContext) : Nat → Nat → Bool → ScanState → List Char → LineScan
  | steps + 1, column, started, state, c :: rest =>
    if 0 < state.commentDepth then
      if c = '/' && rest.head? = some '*' then
        line.scanFrom steps (column + 2) started
          { state with commentDepth := state.commentDepth + 1 } (rest.drop 1)
      else if c = '*' && rest.head? = some '/' then
        line.scanFrom steps (column + 2) started
          { state with commentDepth := state.commentDepth - 1 } (rest.drop 1)
      else line.scanFrom steps (column + 1) started state rest
    else if c = ' ' || c = '\t' then line.scanFrom steps (column + 1) started state rest
    else if c = '/' && rest.head? = some '/' then line.finish started state
    else if c = '/' && rest.head? = some '*' then
      line.scanFrom steps (column + 2) started
        { state with commentDepth := 1, commentStart := ⟨line.number, column⟩ } (rest.drop 1)
    else
      match recognise c rest with
      | .error (fault, length) =>
        ⟨[], state, some (.scan fault (line.span column (column + length)))⟩
      | .ok (kind, length) =>
        match if started then .ok state.indentMark
          else checkIndent state.indentMark 1 line.leading with
        | .error found => ⟨[], state, some (.scan .mixedIndentation (line.span found (found + 1)))⟩
        | .ok mark =>
          let after : ScanState :=
            { state with indentMark := mark, bracketDepth := bracketsAfter kind state.bracketDepth }
          let token := line.token kind ((c :: rest).take length)
            (line.span column (column + length))
          (line.scanFrom steps (column + length) true after (rest.drop (length - 1))).push token
  | _, _, started, state, _ => line.finish started state

end LineContext

/-- Whether a character counts as indentation. -/
def isIndent (c : Char) : Bool := c == ' ' || c == '\t'

/-- Scans one line. -/
def scanLine (path : String) (number : Nat) (state : ScanState) (chars : List Char) : LineScan :=
  LineContext.scanFrom ⟨path, number, chars.takeWhile isIndent, chars.length⟩ chars.length 1 false
    state chars

/-- The result of scanning a source. -/
structure Scanned where
  /-- The tokens before the fault, or all of them. -/
  tokens : List Token
  /-- The lines that were read. -/
  lines : List String
  /-- The first fault. -/
  fault : Option Diagnostic

/-- The marks that end the input, unless a block comment is open. A line that is still open is
ended first. -/
def scanEnd (path : String) (number : Nat) (lineOpen : Bool) (state : ScanState) : Scanned :=
  if 0 < state.commentDepth then
    ⟨[], [], some (.scan .unterminatedComment (.point state.commentStart))⟩
  else
    let mark (kind : Token.Kind) : Token := ⟨kind, "", .point ⟨number, 1⟩, 0, path⟩
    ⟨if lineOpen then [mark .newline, mark .eof] else [mark .eof], [], none⟩

/-- Scans the lines of a source from a line number on. `lineOpen` says whether the last token before
them does not end its line. -/
def scanLines (path : String) : Nat → Bool → ScanState → Source → Scanned
  | number, lineOpen, state, [] => scanEnd path number lineOpen state
  | number, _, _, .unreadable fault :: _ =>
    ⟨[], [], some (.scan (.unreadableLine number fault) (.point ⟨number, 1⟩))⟩
  | number, lineOpen, state, .text chars _ :: rest =>
    let line := scanLine path number state chars
    let text := String.ofList chars
    match line.fault with
    | some fault => ⟨line.tokens, [text], some fault⟩
    | none =>
      let isOpen := match line.tokens.getLast? with
        | some token => !token.isNewline
        | none => lineOpen
      let more := scanLines path (number + 1) isOpen line.state rest
      ⟨line.tokens ++ more.tokens, text :: more.lines, more.fault⟩

/-- Scans a source file. -/
def scan (path : String) (source : Source) : Scanned := scanLines path 1 false {} source

/-- The file name of texts that come from no file. -/
def inputPath : String := "<input>"

/-- The tokens of a text that comes from no file, or its first fault. -/
def scanText (text : String) : Except Diagnostic (List Token) :=
  let scanned := scan inputPath (Source.ofText text)
  match scanned.fault with
  | some fault => .error fault
  | none => .ok scanned.tokens

end BlockScript
