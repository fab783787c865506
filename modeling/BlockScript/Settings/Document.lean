/-!
# Documents

The reader for JSON texts of configurations. It keeps of a document what a configuration can depend
on. A text of a document may hold escapes that denote no character; such a text has no value, but
the document is well formed all the same.
-/

namespace BlockScript

/-- A JSON document, as far as a configuration can depend on it. -/
inductive Document where
  | null
  | bool (b : Bool)
  /-- A number without sign, fraction and exponent. -/
  | integer (n : Nat)
  /-- Any other number. -/
  | number
  /-- A text; it has no value if an escape in it denotes no character. -/
  | text (value : Option String)
  | array (items : List Document)
  | object (fields : List (Option String × Document))

namespace Document

/-- The characters between the parts of a document. -/
def skipBlank (cs : List Char) : List Char :=
  cs.dropWhile fun c => c = ' ' || c = '\n' || c = '\t' || c = '\r'

/-- The value of a hexadecimal digit. -/
def hexValue? (c : Char) : Option Nat :=
  if '0' ≤ c && c ≤ '9' then some (c.toNat - '0'.toNat)
  else if 'a' ≤ c && c ≤ 'f' then some (c.toNat - 'a'.toNat + 10)
  else if 'A' ≤ c && c ≤ 'F' then some (c.toNat - 'A'.toNat + 10)
  else none

/-- A part of a text. -/
inductive Piece where
  /-- A character. -/
  | char (c : Char)
  /-- A unit of sixteen bits, given by an escape. -/
  | unit (n : Nat)

/-- The character of a short escape. -/
def escape? (c : Char) : Option Char :=
  match c with
  | '"' => some '"'
  | '\\' => some '\\'
  | '/' => some '/'
  | 'b' => some (Char.ofNat 8)
  | 'f' => some (Char.ofNat 12)
  | 'n' => some '\n'
  | 'r' => some '\r'
  | 't' => some '\t'
  | _ => none

/-- The value of four hexadecimal digits. -/
def unit? (a b c d : Char) : Option Nat := do
  return (((← hexValue? a) * 16 + (← hexValue? b)) * 16 + (← hexValue? c)) * 16 + (← hexValue? d)

/-- The pieces of a text up to the quote that ends it, and what follows. -/
def readPieces : List Char → Option (List Piece × List Char)
  | '"' :: rest => some ([], rest)
  | '\\' :: 'u' :: a :: b :: c :: d :: rest => do
    let n ← unit? a b c d
    let (pieces, rest) ← readPieces rest
    return (.unit n :: pieces, rest)
  | '\\' :: c :: rest => do
    let c ← escape? c
    let (pieces, rest) ← readPieces rest
    return (.char c :: pieces, rest)
  | c :: rest =>
    if c = '\\' || c.toNat < 32 then none
    else do
      let (pieces, rest) ← readPieces rest
      return (.char c :: pieces, rest)
  | [] => none

/-- Whether a unit is the first half of a character. -/
def isHigh (n : Nat) : Bool := 0xd800 ≤ n && n < 0xdc00

/-- Whether a unit is the second half of a character. -/
def isLow (n : Nat) : Bool := 0xdc00 ≤ n && n < 0xe000

/-- The characters of a text, unless a half of a character stands alone. -/
def characters? : List Piece → Option (List Char)
  | [] => some []
  | .char c :: rest => (characters? rest).map (c :: ·)
  | .unit n :: .unit m :: rest =>
    if isHigh n then
      if isLow m then
        (characters? rest).map (Char.ofNat (0x10000 + (n - 0xd800) * 0x400 + (m - 0xdc00)) :: ·)
      else none
    else if isLow n then none
    else (characters? (.unit m :: rest)).map (Char.ofNat n :: ·)
  | .unit n :: rest =>
    if isHigh n || isLow n then none else (characters? rest).map (Char.ofNat n :: ·)

/-- A text after its opening quote, and what follows. -/
def readText (cs : List Char) : Option (Option String × List Char) :=
  (readPieces cs).map fun (pieces, rest) => ((characters? pieces).map String.ofList, rest)

/-- One digit or more, and what follows. -/
def readDigits (cs : List Char) : Option (List Char × List Char) :=
  let digits := cs.takeWhile Char.isDigit
  if digits.isEmpty then none else some (digits, cs.dropWhile Char.isDigit)

/-- The digits of a whole number, which have no zero in front, and what follows. -/
def readWhole (cs : List Char) : Option (List Char × List Char) := do
  let (digits, rest) ← readDigits cs
  if digits.head? = some '0' && 1 < digits.length then none else some (digits, rest)

/-- What follows the fraction, and whether there is one. -/
def readFraction : List Char → Option (Bool × List Char)
  | '.' :: rest => (readDigits rest).map fun (_, rest) => (true, rest)
  | cs => some (false, cs)

/-- What follows the sign of an exponent. -/
def skipSign : List Char → List Char
  | '+' :: rest | '-' :: rest => rest
  | cs => cs

/-- What follows the exponent, and whether there is one. -/
def readExponent : List Char → Option (Bool × List Char)
  | 'e' :: rest | 'E' :: rest => (readDigits (skipSign rest)).map fun (_, rest) => (true, rest)
  | cs => some (false, cs)

/-- A number, and what follows. -/
def readNumber (cs : List Char) : Option (Document × List Char) := do
  let negative := cs.head? = some '-'
  let (digits, rest) ← readWhole (if negative then cs.drop 1 else cs)
  let (fraction, rest) ← readFraction rest
  let (exponent, rest) ← readExponent rest
  if negative || fraction || exponent then return (.number, rest)
  return (.integer (digits.foldl (fun n c => n * 10 + (c.toNat - '0'.toNat)) 0), rest)

mutual

/-- A value, and what follows. -/
def readValue : Nat → List Char → Option (Document × List Char)
  | 0, _ => none
  | fuel + 1, cs =>
    match skipBlank cs with
    | 'n' :: 'u' :: 'l' :: 'l' :: rest => some (.null, rest)
    | 't' :: 'r' :: 'u' :: 'e' :: rest => some (.bool true, rest)
    | 'f' :: 'a' :: 'l' :: 's' :: 'e' :: rest => some (.bool false, rest)
    | '"' :: rest => (readText rest).map fun (value, rest) => (.text value, rest)
    | '[' :: rest =>
      match skipBlank rest with
      | ']' :: rest => some (.array [], rest)
      | rest => (readItems fuel rest).map fun (items, rest) => (.array items, rest)
    | '\x7b' :: rest =>
      match skipBlank rest with
      | '\x7d' :: rest => some (.object [], rest)
      | rest => (readFields fuel rest).map fun (fields, rest) => (.object fields, rest)
    | rest => readNumber rest

/-- One item or more up to the bracket that ends them, and what follows. -/
def readItems : Nat → List Char → Option (List Document × List Char)
  | 0, _ => none
  | fuel + 1, cs => do
    let (item, rest) ← readValue fuel cs
    match skipBlank rest with
    | ']' :: rest => return ([item], rest)
    | ',' :: rest =>
      let (items, rest) ← readItems fuel rest
      return (item :: items, rest)
    | _ => none

/-- One field or more up to the brace that ends them, and what follows. -/
def readFields : Nat → List Char → Option (List (Option String × Document) × List Char)
  | 0, _ => none
  | fuel + 1, cs =>
    match skipBlank cs with
    | '"' :: rest => do
      let (name, rest) ← readText rest
      match skipBlank rest with
      | ':' :: rest =>
        let (value, rest) ← readValue fuel rest
        match skipBlank rest with
        | '\x7d' :: rest => return ([(name, value)], rest)
        | ',' :: rest =>
          let (fields, rest) ← readFields fuel rest
          return ((name, value) :: fields, rest)
        | _ => none
      | _ => none
    | _ => none

end

/-- The document that a text is. Every value takes at least one character, and every step of the
reader that takes none is followed by one that does. -/
def read (text : String) : Option Document :=
  match readValue (2 * text.length + 2) text.toList with
  | some (document, rest) => if (skipBlank rest).isEmpty then some document else none
  | none => none

end Document

end BlockScript
