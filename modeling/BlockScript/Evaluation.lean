import BlockScript.Decimal.Reading
import BlockScript.Picture
import BlockScript.Text.Blank
import BlockScript.Text.Lowercase

/-!
# Evaluation

What operators, casts and functions compute from values that are known. The results are those of the
robot, so that it makes no difference whether a value is computed before or during a run.
-/

namespace BlockScript

/-- The number that a text denotes; blanks around it do not count. -/
def readNumber (text : String) : Option Float :=
  Decimal.read (Text.trim text.toList)

/-- The remainder of a division whose quotient is rounded down: its sign is that of the divisor. -/
def flooredRemainder (l r : Float) : Float := l - r * (l / r).floor

namespace Value

/-- The number that a value can be compared as. -/
def number? : Value → Option Float
  | .number n => some n
  | .string s => readNumber s
  | .boolean _ => none

/-- Whether the robot takes two values for equal: as numbers if both can be read as numbers, else as
texts, where upper and lower case are the same. -/
def equals (left right : Value) : Bool :=
  match left.number?, right.number? with
  | some l, some r => l == r
  | _, _ => Text.lower left.text == Text.lower right.text

/-- Whether a value is the number zero, of either sign. -/
def isZero : Value → Bool
  | .number n => n == 0.0
  | _ => false

/-- A value converted to a type. There is no result for conversions that leave a value to the
robot, and a fault for those that cannot succeed. -/
def cast (pictures : Pictures) (target : DataType) (value : Value) :
    Except AnalysisFault (Option Value) :=
  match target, value with
  | .number, .number n => .ok (some (.number n))
  | .number, .string s =>
    match readNumber s with
    | some n => .ok (some (.number n))
    | none => .error (.notANumber s)
  | .string, value => .ok (some (.string value.text))
  | .image, .string path =>
    if path = "" then .ok (some (.string Picture.black.text))
    else if path.startsWith "#" then .ok (some (.string path))
    else match pictures path with
      | .ok pixels => .ok (some (.string pixels))
      | .error fault => .error (.pictureUnavailable fault)
  | _, _ => .ok none

end Value

/-- The result of an operator. There is none if the operands do not fit or the divisor is zero. -/
def BinaryOp.eval? (op : BinaryOp) (left right : Value) : Option Value :=
  match op, left, right with
  | .add, .number l, .number r => some (.number (l + r))
  | .add, .string l, r => some (.string (l ++ r.text))
  | .add, l, .string r => some (.string (l.text ++ r))
  | .sub, .number l, .number r => some (.number (l - r))
  | .mul, .number l, .number r => some (.number (l * r))
  | .div, .number l, .number r => if r == 0.0 then none else some (.number (l / r))
  | .mod, .number l, .number r => if r == 0.0 then none else some (.number (flooredRemainder l r))
  | .lt, .number l, .number r => some (.boolean (l < r))
  | .gt, .number l, .number r => some (.boolean (l > r))
  | .eq, l, r => some (.boolean (l.equals r))
  | .and, .boolean l, .boolean r => some (.boolean (l && r))
  | .or, .boolean l, .boolean r => some (.boolean (l || r))
  | _, _, _ => none

/-- The fault of dividing by zero with an operator. -/
def BinaryOp.zeroFault? : BinaryOp → Option AnalysisFault
  | .div => some .divisionByZero
  | .mod => some .moduloByZero
  | _ => none

/-- An angle in degrees as radians. -/
def radians (degrees : Float) : Float := degrees * 0.017453292519943295

/-- A number rounded to ten places, so that the sine of 180 degrees is zero. -/
def tenPlaces (x : Float) : Float := (x * 1e10).round / 1e10

/-- The result of a mathematical function that the robot computes in the same way at all times. -/
def mathValue? (name : String) (x : Float) : Option Float :=
  match name with
  | "math.abs" => some x.abs
  | "math.floor" => some x.floor
  | "math.ceil" => some x.ceil
  | "math.round" => some x.round
  | "math.sqrt" => if x >= 0.0 then some x.sqrt else none
  | "math.sin" => some (tenPlaces (radians x).sin)
  | "math.cos" => some (tenPlaces (radians x).cos)
  | _ => none

/-- The result of a function of the catalog on known arguments. -/
def callValue? (name : String) : List (Option Value) → Option Value
  | [some (.number x)] => (mathValue? name x).map .number
  | _ => none

end BlockScript
