/-!
# Reading decimals

Texts of numbers: an optional sign, then digits with an optional point (either side may be empty,
not both) and an optional exponent, or one of the words `inf`, `infinity` and `nan` in any case.
The value is the double nearest to the decimal.
-/

namespace BlockScript.Decimal

/-- The number that decimal digits stand for. -/
def digitsValue (digits : List Char) : Nat :=
  digits.foldl (fun value digit => 10 * value + (digit.toNat - '0'.toNat)) 0

/-- The double nearest to `mantissa * 10 ^ exponent`. Decimals far beyond the range of doubles are
decided by their size alone. -/
def nearest (mantissa : Nat) (exponent : Int) : Float :=
  let size := exponent + (Nat.toDigits 10 mantissa).length
  if mantissa = 0 || size < -400 then Float.ofScientific 0 false 0
  else if 400 < size then Float.ofScientific 1 false 400
  else Float.ofScientific mantissa (decide (exponent < 0)) exponent.natAbs

/-- Whether a minus stands in front, and what follows the sign if there is one. -/
def splitSign : List Char → Bool × List Char
  | '-' :: rest => (true, rest)
  | '+' :: rest => (false, rest)
  | cs => (false, cs)

/-- The exponent part that ends a number; no exponent counts as zero. -/
def readExponent : List Char → Option Int
  | [] => some 0
  | 'e' :: rest =>
    let (negative, digits) := splitSign rest
    if digits.isEmpty || !digits.all Char.isDigit then none
    else some (if negative then -(digitsValue digits : Int) else digitsValue digits)
  | _ => none

/-- A number without sign that is written with digits. -/
def readDigits (cs : List Char) : Option Float :=
  let whole := cs.takeWhile Char.isDigit
  let (fraction, rest) := match cs.dropWhile Char.isDigit with
    | '.' :: rest => (rest.takeWhile Char.isDigit, rest.dropWhile Char.isDigit)
    | rest => ([], rest)
  if whole.isEmpty && fraction.isEmpty then none
  else (readExponent rest).map fun exponent =>
    nearest (digitsValue (whole ++ fraction)) (exponent - fraction.length)

/-- A number without sign. -/
def readMagnitude (cs : List Char) : Option Float :=
  if cs = "inf".toList || cs = "infinity".toList then some (Float.ofScientific 1 false 400)
  else if cs = "nan".toList then some (Float.ofBits 0x7ff8000000000000)
  else readDigits cs

/-- The number that a text stands for; upper and lower case are the same. -/
def read (cs : List Char) : Option Float :=
  let (negative, magnitude) := splitSign (cs.map Char.toLower)
  (readMagnitude magnitude).map fun n => if negative then n.neg else n

end BlockScript.Decimal
