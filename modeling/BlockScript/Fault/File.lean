/-!
# Faults of files

Why a file cannot be read or written.
-/

namespace BlockScript

/-- Why a file cannot be read or written. -/
inductive FileFault where
  | missing
  | alreadyExists
  | notDirectory
  | isDirectory
  /-- The bytes of the file are not text. -/
  | invalidText
  deriving DecidableEq, Inhabited

/-- The words of the operating system for a fault. -/
def FileFault.message : FileFault → String
  | .missing => "No such file or directory (os error 2)"
  | .alreadyExists => "File exists (os error 17)"
  | .notDirectory => "Not a directory (os error 20)"
  | .isDirectory => "Is a directory (os error 21)"
  | .invalidText => "stream did not contain valid UTF-8"

end BlockScript
