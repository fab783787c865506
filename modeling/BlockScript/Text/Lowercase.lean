import BlockScript.Text.Cased

/-!
# Lower case

The full lower-case form of a text. Every character maps to one character, with two exceptions: a
capital I with a dot becomes a small i and a combining dot, and a capital sigma becomes a final
sigma at the end of a word. A sigma ends a word when, passing over case-ignorable characters, a
cased character stands before it and none after it.
-/

namespace BlockScript.Text

/-- Code points whose lower case is `shift` away, in steps within ranges. -/
structure CaseRun where
  /-- The distance between code points of a range. -/
  step : Nat
  /-- What to add to a code point. -/
  shift : Int
  /-- The ranges, written as runs. -/
  runs : List Nat

/-- The code points that differ from their lower case, by the distance. -/
def caseRuns : List CaseRun :=
  [⟨1, 32, [65, 26, 101, 23, 1, 7, 690, 17, 1, 9, 100, 32, 64241, 26, 3605, 22, 2874, 32,
    21888, 32]⟩,
    ⟨2, 1, [256, 47, 3, 5, 2, 15, 2, 45, 2, 5, 4, 3, 2, 1, 3, 1, 5, 1, 6, 1, 7, 5, 2, 1, 4, 1,
    2, 1, 3, 3, 2, 1, 3, 1, 8, 1, 2, 1, 2, 17, 2, 17, 3, 3, 3, 39, 3, 17, 8, 1, 5, 1, 4, 9, 289, 3,
    3, 1, 97, 23, 8, 1, 2, 1, 101, 33, 9, 53, 2, 13, 2, 95, 5978, 1, 374, 149, 11, 95, 644, 1, 2780,
    1, 6, 5, 6, 1, 2, 1, 10, 99, 8, 3, 4, 1, 31053, 45, 19, 27, 135, 13, 3, 61, 10, 3, 2, 9, 4, 1,
    4, 3, 3, 19, 11, 15, 4, 3, 2, 15, 26, 1]⟩, ⟨1, 205, [393, 2, 8, 1]⟩, ⟨1, 217, [433, 2]⟩,
    ⟨1, -130, [544, 1, 476, 3]⟩,
    ⟨1, 37, [904, 3]⟩, ⟨1, 64, [908, 1, 67827, 51]⟩, ⟨1, 63, [910, 2]⟩, ⟨1, 8, [975, 1, 4128, 6]⟩,
    ⟨1, 80, [1024, 16]⟩, ⟨1, 48, [1329, 38, 9897, 48]⟩, ⟨1, 7264, [4256, 38, 1, 1, 5, 1]⟩,
    ⟨1, 38864, [5024, 80]⟩, ⟨1, -3008, [7312, 43, 2, 3]⟩,
    ⟨1, -8, [7944, 8, 8, 6, 10, 8, 8, 8, 8, 6, 26,
    8, 24, 8, 8, 8, 8, 8, 8, 2, 30, 2, 14, 2]⟩, ⟨2, -8, [8025, 7]⟩, ⟨1, -74, [8122, 2]⟩,
    ⟨1, -86, [8136,
    4]⟩, ⟨1, -100, [8154, 2]⟩, ⟨1, -112, [8170, 2]⟩, ⟨1, -128, [8184, 2]⟩, ⟨1, -126, [8186, 2]⟩,
    ⟨1, 16, [8544, 16]⟩, ⟨1, 26, [9398, 26]⟩, ⟨1, -10815, [11390, 2]⟩,
    ⟨1, 40, [66560, 40, 136, 36]⟩,
    ⟨1, 39, [66928, 11, 1, 15, 1, 7, 1, 2]⟩, ⟨1, 27, [93856, 25]⟩, ⟨1, 34, [125184, 34]⟩]

/-- Single code points and their lower case. -/
def casePairs : List (Nat × Nat) :=
  [(376, 255), (385, 595), (390, 596), (398, 477), (399, 601), (400, 603), (404, 611), (406, 617),
   (407, 616), (412, 623), (413, 626), (415, 629), (422, 640), (425, 643), (430, 648), (439, 658),
   (452, 454), (455, 457), (458, 460), (497, 499), (502, 405), (503, 447), (570, 11365), (573, 410),
   (574, 11366), (579, 384), (580, 649), (581, 652), (895, 1011), (902, 940), (1012, 952),
   (1017, 1010),
   (1216, 1231), (7838, 223), (8124, 8115), (8140, 8131), (8172, 8165), (8188, 8179), (8486, 969),
   (8490, 107), (8491, 229), (8498, 8526), (11362, 619), (11363, 7549), (11364, 637), (11373, 593),
   (11374, 625), (11375, 592), (11376, 594), (42877, 7545), (42893, 613), (42922, 614),
   (42923, 604),
   (42924, 609), (42925, 620), (42926, 618), (42928, 670), (42929, 647), (42930, 669),
   (42931, 43859), (42948, 42900), (42949, 642), (42950, 7566), (42955, 612), (42972, 411)]

/-- Whether a code point is a member of a run. -/
def CaseRun.holds (run : CaseRun) (code : Nat) : Bool :=
  (rangesFrom 0 run.runs).any fun range =>
    range.1 ≤ code && code ≤ range.2 && (code - range.1) % run.step == 0

/-- The lower case of a character whose lower case is one character. -/
def lowerChar (c : Char) : Char :=
  match casePairs.lookup c.toNat, caseRuns.find? (·.holds c.toNat) with
  | some code, _ => Char.ofNat code
  | none, some run => Char.ofNat (Int.toNat (c.toNat + run.shift))
  | none, none => c

/-- Whether the first character that is not case-ignorable is cased. -/
def startsCased (cs : List Char) : Bool :=
  match cs.dropWhile isCaseIgnorable with
  | [] => false
  | c :: _ => isCased c

/-- The lower case of `rest`, where `before` holds the characters in front of it, nearest first. -/
def lowerFrom (before : List Char) : List Char → List Char
  | [] => []
  | c :: rest =>
    let lowered :=
      if c = 'Σ' then
        if startsCased before && !startsCased rest then ['ς'] else ['σ']
      else if c = 'İ' then ['i', '\u0307']
      else [lowerChar c]
    lowered ++ lowerFrom (c :: before) rest

/-- The lower case of a text. -/
def lower (text : String) : String := String.ofList (lowerFrom [] text.toList)

end BlockScript.Text
