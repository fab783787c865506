/-!
# Shortest decimals of doubles

A finite double stands for an interval of reals: those that round to it. Its shortest decimal is the
one with the fewest digits in that interval; of two with equally few digits it is the nearer one.
All comparisons are made on natural numbers, so nothing is rounded on the way.
-/

namespace BlockScript.Decimal

/-- The magnitude `significand * 2 ^ exponent` of a finite double. -/
structure Scaled where
  /-- The integer significand. -/
  significand : Nat
  /-- The power of two that scales it. -/
  exponent : Int

/-- The magnitude of a finite double. -/
def Scaled.ofFloat (x : Float) : Scaled :=
  let bits : Nat := x.toBits.toNat
  let fraction : Nat := bits % Nat.pow 2 52
  let biased : Nat := bits / Nat.pow 2 52 % Nat.pow 2 11
  if biased = 0 then ⟨fraction, -1074⟩ else ⟨Nat.pow 2 52 + fraction, (biased : Int) - 1075⟩

/-- Whether the sign bit of a double is set. -/
def isNegative (x : Float) : Bool := x.toBits.toNat / Nat.pow 2 63 == 1

/-- The decimal `digits * 10 ^ exponent`. -/
structure Digits where
  /-- The digits, as one number. -/
  digits : Nat
  /-- The power of ten that scales them. -/
  exponent : Int

/-- Which of two equally near neighbours is taken. -/
inductive Tie where
  /-- The greater one. -/
  | up
  /-- The one whose last digit is even. -/
  | even
  deriving DecidableEq

namespace Scaled

/-- Compares the decimal `c * 10 ^ e` with `n` quarters of the unit `2 ^ exponent`. -/
def compareQuarters (s : Scaled) (c : Nat) (e : Int) (n : Nat) : Ordering :=
  compare (c * Nat.pow 10 e.toNat * Nat.pow 2 (2 - s.exponent).toNat)
    (n * Nat.pow 2 (s.exponent - 2).toNat * Nat.pow 10 (-e).toNat)

/-- Whether the gap below is half as wide as the gap above: at powers of two above the least
exponent. -/
def narrowBelow (s : Scaled) : Bool := s.significand == Nat.pow 2 52 && -1074 < s.exponent

/-- Whether the decimal `c * 10 ^ e` rounds to the double. The ends of the interval do if the
significand is even. -/
def rounds (s : Scaled) (c : Nat) (e : Int) : Bool :=
  let low := s.compareQuarters c e (4 * s.significand - if s.narrowBelow then 1 else 2)
  let high := s.compareQuarters c e (4 * s.significand + 2)
  if s.significand % 2 = 0 then low != .lt && high != .gt else low == .gt && high == .lt

/-- The greatest multiple of `10 ^ e` that is not above the double, divided by `10 ^ e`. -/
def floorAt (s : Scaled) (e : Int) : Nat :=
  s.significand * Nat.pow 2 s.exponent.toNat * Nat.pow 10 (-e).toNat /
    (Nat.pow 10 e.toNat * Nat.pow 2 (-s.exponent).toNat)

/-- The neighbour of the double on the grid of multiples of `10 ^ e` that rounds to it, the nearer
one if both do. -/
def neighbour? (tie : Tie) (s : Scaled) (e : Int) : Option Digits :=
  let c := s.floorAt e
  match s.rounds c e, s.rounds (c + 1) e with
  | false, false => none
  | true, false => some ⟨c, e⟩
  | false, true => some ⟨c + 1, e⟩
  | true, true =>
    match s.compareQuarters (2 * c + 1) e (8 * s.significand), tie with
    | .gt, _ => some ⟨c, e⟩
    | .lt, _ => some ⟨c + 1, e⟩
    | .eq, .up => some ⟨c + 1, e⟩
    | .eq, .even => some ⟨if c % 2 = 0 then c else c + 1, e⟩

/-- The exponent of the leading digit of a positive double. -/
def leadingExponent (s : Scaled) : Int :=
  let num := s.significand * Nat.pow 2 s.exponent.toNat
  let den := Nat.pow 2 (-s.exponent).toNat
  let guess : Int := ((Nat.toDigits 10 num).length : Int) - (Nat.toDigits 10 den).length
  if den * Nat.pow 10 guess.toNat ≤ num * Nat.pow 10 (-guess).toNat then guess else guess - 1

/-- The shortest decimal that rounds to the double; seventeen digits always suffice. The search
begins one place above the leading digit, where a power of ten just above the double lies. -/
def shortest (tie : Tie) (s : Scaled) : Digits :=
  if s.significand = 0 then ⟨0, 0⟩
  else
    let top := s.leadingExponent
    ((List.range 18).findSome? fun k : Nat => s.neighbour? tie (top + 1 - k)).getD
      ⟨s.floorAt (top - 16), top - 16⟩

end Scaled

end BlockScript.Decimal
