import BlockScript.Fault.Analysis

/-!
# Pictures

The display of a robot has sixteen rows of sixteen pixels. A picture on it is a text: the colours of
its pixels, row by row, with commas between them. Colours are shown over black, with sixteen levels
for each channel.
-/

namespace BlockScript

/-- The number of rows and of columns of the display. -/
def displaySize : Nat := 16

/-- A colour with its opacity. -/
structure Pixel where
  red : UInt8
  green : UInt8
  blue : UInt8
  alpha : UInt8
  deriving DecidableEq

/-- The level of a channel over black, from 0 to 255 in steps of 17. -/
def Pixel.level (channel alpha : UInt8) : Nat :=
  channel.toNat * alpha.toNat / 255 / 16 * 17

/-- A number below 256 as two digits. -/
def hexByte (n : Nat) : List Char :=
  [Nat.digitChar (n / 16), Nat.digitChar (n % 16)]

/-- The text of a colour. -/
def Pixel.text (p : Pixel) : String :=
  String.ofList
    ('#' :: hexByte (level p.red p.alpha) ++ hexByte (level p.green p.alpha) ++
      hexByte (level p.blue p.alpha))

/-- A picture for the display: sixteen by sixteen pixels as they are, or one colour. -/
inductive Picture where
  | pixels (rows : List Pixel)
  | filled (colour : Pixel)
  deriving DecidableEq

/-- The picture of a file: one of the size of the display is shown as it is, and any other has one
colour only. -/
def Picture.ofPixels (width height : Nat) (pixels : List Pixel) : Picture :=
  match pixels with
  | colour :: _ =>
    if width = displaySize ∧ height = displaySize then .pixels pixels else .filled colour
  | [] => .pixels []

/-- The pixels of a picture on the display. -/
def Picture.shown : Picture → List Pixel
  | .pixels rows => rows
  | .filled colour => List.replicate (displaySize * displaySize) colour

/-- The text of a picture. -/
def Picture.text (p : Picture) : String :=
  ",".intercalate (p.shown.map Pixel.text)

/-- The picture with all pixels off. -/
def Picture.black : Picture := .filled ⟨0, 0, 0, 255⟩

/-- Where pictures come from: the text of the picture at a path. -/
abbrev Pictures := String → Except PictureFault String

end BlockScript
