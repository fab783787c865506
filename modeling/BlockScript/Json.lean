import BlockScript.Decimal.Layout

/-!
# JSON

Values of JSON and their texts: a compact one without blanks, and one with a line for each item and
two blanks for each level. Fields stand in the order in which they are given.
-/

namespace BlockScript

/-- A JSON value. -/
inductive Json where
  | null
  | bool (b : Bool)
  | integer (n : Nat)
  | number (x : Float)
  | string (s : String)
  | array (items : List Json)
  | object (fields : List (String × Json))

namespace Json

/-- Numbers keep a fraction, and have an exponent below 0.00001 and from 10 to the 16 on. -/
def numberLayout : Decimal.Layout := ⟨.even, some (-5, 16), true⟩

/-- The text of a number. What is not finite has none. -/
def numberText (x : Float) : String :=
  if x.isNaN || x.isInf then "null" else numberLayout.write x

/-- How a character stands in a string. -/
def escaped (c : Char) : List Char :=
  if c = '"' then ['\\', '"']
  else if c = '\\' then ['\\', '\\']
  else if c = '\n' then ['\\', 'n']
  else if c = '\r' then ['\\', 'r']
  else if c = '\t' then ['\\', 't']
  else if c.toNat = 8 then ['\\', 'b']
  else if c.toNat = 12 then ['\\', 'f']
  else if c.toNat < 32 then
    ['\\', 'u', '0', '0', Nat.digitChar (c.toNat / 16), Nat.digitChar (c.toNat % 16)]
  else [c]

/-- The text of a string. -/
def quoted (s : String) : String := String.ofList ('"' :: s.toList.flatMap escaped ++ ['"'])

mutual

/-- The text without blanks. -/
def compact : Json → String
  | .null => "null"
  | .bool b => if b then "true" else "false"
  | .integer n => toString n
  | .number x => numberText x
  | .string s => quoted s
  | .array items => "[" ++ ",".intercalate (compactItems items) ++ "]"
  | .object fields => "\x7b" ++ ",".intercalate (compactFields fields) ++ "\x7d"

/-- The texts of items. -/
def compactItems : List Json → List String
  | [] => []
  | item :: rest => compact item :: compactItems rest

/-- The texts of fields. -/
def compactFields : List (String × Json) → List String
  | [] => []
  | (name, value) :: rest => (quoted name ++ ":" ++ compact value) :: compactFields rest

end

/-- Lines between an opening and a closing sign, indented one level more than the signs. -/
def block (opening closing indent : String) (lines : List String) : String :=
  if lines.isEmpty then opening ++ closing
  else
    let inner := indent ++ "  "
    opening ++ "\n" ++ ",\n".intercalate (lines.map (inner ++ ·)) ++ "\n" ++ indent ++ closing

mutual

/-- The text with a line for each item, where lines are indented by `indent`. -/
def prettyAt (indent : String) : Json → String
  | .array items => block "[" "]" indent (prettyItems (indent ++ "  ") items)
  | .object fields => block "\x7b" "\x7d" indent (prettyFields (indent ++ "  ") fields)
  | .null => compact .null
  | .bool b => compact (.bool b)
  | .integer n => compact (.integer n)
  | .number x => compact (.number x)
  | .string s => compact (.string s)

/-- The texts of items. -/
def prettyItems (indent : String) : List Json → List String
  | [] => []
  | item :: rest => prettyAt indent item :: prettyItems indent rest

/-- The texts of fields. -/
def prettyFields (indent : String) : List (String × Json) → List String
  | [] => []
  | (name, value) :: rest =>
    (quoted name ++ ": " ++ prettyAt indent value) :: prettyFields indent rest

end

/-- The text with a line for each item. -/
def pretty (j : Json) : String := prettyAt "" j

mutual

/-- The value with the fields of all objects in the order of their names. -/
def sorted : Json → Json
  | .array items => .array (sortedItems items)
  | .object fields => .object ((sortedFields fields).mergeSort fun a b => a.1 ≤ b.1)
  | .null => .null
  | .bool b => .bool b
  | .integer n => .integer n
  | .number x => .number x
  | .string s => .string s

/-- The items, each sorted. -/
def sortedItems : List Json → List Json
  | [] => []
  | item :: rest => sorted item :: sortedItems rest

/-- The fields, with sorted values. -/
def sortedFields : List (String × Json) → List (String × Json)
  | [] => []
  | (name, value) :: rest => (name, sorted value) :: sortedFields rest

end

/-- The value of something that may be missing. -/
def ofOption {α : Type} (f : α → Json) : Option α → Json
  | some a => f a
  | none => .null

/-- The array of several values. -/
def ofList {α : Type} (f : α → Json) (items : List α) : Json := .array (items.map f)

end Json

end BlockScript
