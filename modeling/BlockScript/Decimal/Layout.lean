import BlockScript.Decimal.Shortest

/-!
# Decimal texts

How the shortest decimal of a double is written down. A layout says which of two equally near
decimals is taken, for which exponents the digits are written around a decimal point without an
exponent mark, and whether a whole number keeps a fraction.
-/

namespace BlockScript.Decimal

/-- The decisions of a decimal format. -/
structure Layout where
  /-- Which of two equally near shortest decimals is written. -/
  tie : Tie
  /-- The exponents of the leading digit written without an exponent mark, from the first up to
  and without the second; all of them if there is no range. -/
  plain : Option (Int × Int)
  /-- Whether a whole number is written with the fraction `.0`. -/
  keepFraction : Bool

/-- A run of zeros. -/
def zeros (n : Nat) : List Char := List.replicate n '0'

/-- Digits around a decimal point. The last digit counts `10 ^ exponent`. -/
def positional (keepFraction : Bool) (digits : List Char) (exponent : Int) : List Char :=
  if 0 ≤ exponent then
    digits ++ zeros exponent.toNat ++ if keepFraction then ['.', '0'] else []
  else
    let places := (-exponent).toNat
    if places < digits.length then
      digits.take (digits.length - places) ++ '.' :: digits.drop (digits.length - places)
    else ['0', '.'] ++ zeros (places - digits.length) ++ digits

/-- One digit, the others after a point, and the exponent of the leading digit with its sign. -/
def scientific (digits : List Char) (leading : Int) : List Char :=
  let fraction := if digits.length ≤ 1 then [] else '.' :: digits.drop 1
  let mark := if leading < 0 then ['e', '-'] else ['e', '+']
  digits.take 1 ++ fraction ++ mark ++ (Nat.toDigits 10 leading.natAbs)

/-- The text of a finite double. -/
def Layout.write (layout : Layout) (x : Float) : String :=
  let decimal := (Scaled.ofFloat x).shortest layout.tie
  let digits := Nat.toDigits 10 decimal.digits
  let leading := decimal.exponent + digits.length - 1
  let isPlain := match layout.plain with
    | none => true
    | some (low, high) => low ≤ leading && leading < high
  let body :=
    if isPlain then positional layout.keepFraction digits decimal.exponent
    else scientific digits leading
  String.ofList (if isNegative x then '-' :: body else body)

end BlockScript.Decimal
