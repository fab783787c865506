import BlockScript.CommandLine

/-!
# The command line

Reads the files that the arguments name and the configuration files next to them, runs the compiler
on them, and writes what has changed.
-/

namespace BlockScript

/-- The files with one more from the disk, if it is there. -/
def loadFile (files : Files) (path : String) : IO Files := do
  try
    let bytes ← IO.FS.readBinFile path
    return files.add path (.file bytes.toList)
  catch _ => return files

/-- The files that arguments may name. -/
def loadFiles (arguments : List String) : IO Files := do
  let mut files : Files := .empty
  for path in arguments do
    files ← loadFile files path
    files ← loadFile files (Path.config (Path.directory path))
  return files

/-- Writes a file to the disk. -/
def storeFile (path : String) (bytes : List UInt8) : IO Unit := do
  if let some parent := Path.parent? path then
    if parent ≠ "" then IO.FS.createDirAll parent
  IO.FS.writeBinFile path ⟨bytes.toArray⟩

end BlockScript

open BlockScript in
/-- Runs the compiler. -/
def main (arguments : List String) : IO UInt32 := do
  let files ← loadFiles arguments
  let outcome := run arguments files []
  for (path, bytes) in outcome.files.changes files do
    storeFile path bytes
  IO.print outcome.printed
  IO.eprint outcome.messages
  return outcome.exit.toUInt32
