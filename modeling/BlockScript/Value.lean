import BlockScript.Decimal.Layout

/-!
# Types and values

The types of the language and the values that literals denote. A picture is a value of type
`image` that is held as text, so it has no values of its own.
-/

namespace BlockScript

/-- The types of the language. -/
inductive DataType where
  | number
  | string
  | boolean
  /-- A picture of sixteen by sixteen pixels, held as the text of its colours. -/
  | image
  | numberList
  | stringList
  deriving DecidableEq, Inhabited

/-- A literal value, as written in a program or computed from one. -/
inductive Value where
  | number (n : Float)
  | string (s : String)
  | boolean (b : Bool)
  deriving DecidableEq, Inhabited

namespace DataType

/-- Whether the type is a list type. -/
def isList : DataType → Bool
  | .numberList | .stringList => true
  | _ => false

/-- The type of the elements of a list type. -/
def element? : DataType → Option DataType
  | .numberList => some .number
  | .stringList => some .string
  | _ => none

/-- The list type with elements of this type, if there is one. -/
def listOf? : DataType → Option DataType
  | .number => some .numberList
  | .string => some .stringList
  | _ => none

/-- The value of a variable of this type that is declared without an initializer. -/
def default? : DataType → Option Value
  | .number => some (.number (Float.ofScientific 0 false 0))
  | .string => some (.string "")
  | _ => none

/-- How the type is written in a program. -/
def spelling : DataType → String
  | .number => "number"
  | .string => "string"
  | .boolean => "boolean"
  | .image => "image"
  | .numberList => "number[]"
  | .stringList => "string[]"

instance : ToString DataType := ⟨spelling⟩

/-- The name of the type in JSON texts. -/
def label : DataType → String
  | .number => "number"
  | .string => "string"
  | .boolean => "boolean"
  | .image => "image"
  | .numberList => "number_list"
  | .stringList => "string_list"

end DataType

/-- A list of types in parentheses. -/
def describeTypes (types : List DataType) : String :=
  "(" ++ ", ".intercalate (types.map DataType.spelling) ++ ")"

/-- Numbers are shown in full, without an exponent; of two equally near decimals the greater one is
taken. -/
def numberLayout : Decimal.Layout := ⟨.up, none, false⟩

/-- The text that the robot shows for a number. Zero has no sign. -/
def numberText (n : Float) : String :=
  if n.isNaN then "NaN"
  else if n.isInf then if Decimal.isNegative n then "-Infinity" else "Infinity"
  else if (Decimal.Scaled.ofFloat n).significand = 0 then "0"
  else numberLayout.write n

namespace Value

/-- The type of a value. -/
def dataType : Value → DataType
  | .number _ => .number
  | .string _ => .string
  | .boolean _ => .boolean

/-- The text that the robot shows for a value. -/
def text : Value → String
  | .number n => numberText n
  | .string s => s
  | .boolean b => if b then "true" else "false"

end Value

end BlockScript
