/-!
# Ranges of code points

Properties of characters are given as ascending lists of ranges of code points, both ends
included. Long lists are written as runs: how many code points lie before a range, after the one
before it, and how many lie in it.
-/

namespace BlockScript.Text

/-- Whether a code point lies in one of the ranges. -/
def inRanges (ranges : List (Nat × Nat)) (code : Nat) : Bool :=
  ranges.any fun range => range.1 ≤ code && code ≤ range.2

/-- The ranges that are written as runs, from a code point on. -/
def rangesFrom (start : Nat) : List Nat → List (Nat × Nat)
  | gap :: size :: rest =>
    (start + gap, start + gap + size - 1) :: rangesFrom (start + gap + size) rest
  | _ => []

end BlockScript.Text
