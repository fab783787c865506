import BlockScript.Path
import BlockScript.Picture
import BlockScript.Source.Line
import BlockScript.Table

/-!
# Files

The files that a run of the compiler can see, as a table of places. A place is the list of names
that leads to it from the working directory. A directory exists if it is in the table or if
something below it is. Names that lead out of the working directory begin with two dots or with a
slash.
-/

namespace BlockScript

/-- What stands at a place. -/
inductive FileEntry where
  /-- A file, by its bytes. -/
  | file (bytes : List UInt8)
  /-- A file that holds a picture. -/
  | picture (picture : Picture)
  | directory
  deriving DecidableEq

/-- The names that lead to a file from the working directory. -/
abbrev Place := List String

/-- The files that can be seen. -/
abbrev Files := Table Place FileEntry

/-- The first bytes of a file that holds a picture; they are not text. -/
def pictureSignature : List UInt8 := [0x89, 0x50, 0x4e, 0x47, 0x0d, 0x0a, 0x1a, 0x0a]

namespace Files

/-- Whether a place is a directory. -/
def isDirectory (files : Files) (place : Place) : Bool :=
  place.all (fun name => name = ".." || name = "/") || files.get? place = some .directory ||
    files.keys.any fun other => place.isPrefixOf other && place.length < other.length

/-- Whether there is anything at a place. -/
def isPresent (files : Files) (place : Place) : Bool :=
  files.contains place || files.isDirectory place

/-- The place that a segment leads to. -/
def step (place : Place) (segment : String) : Place :=
  if !Path.counts segment then place
  else if segment = ".." then
    match place.getLast? with
    | none | some ".." => place ++ [".."]
    | some "/" => place
    | some _ => place.dropLast
  else place ++ [segment]

/-- Follows segments from a place; all places on the way must be directories. -/
def follow (files : Files) (place : Place) : List String → Except FileFault Place
  | [] => .ok place
  | segment :: rest =>
    if files.isDirectory place then files.follow (step place segment) rest
    else if files.isPresent place then .error .notDirectory
    else .error .missing

/-- The place that a path leads to. There may be nothing at it. -/
def place (files : Files) (path : String) : Except FileFault Place :=
  if path = "" then .error .missing
  else files.follow (if Path.isAbsolute path then ["/"] else []) (Path.segments path)

/-- Whether a path leads to anything. -/
def holds (files : Files) (path : String) : Bool :=
  match files.place path with
  | .ok place => files.isPresent place
  | .error _ => false

/-- Whether a path leads to a directory. -/
def holdsDirectory (files : Files) (path : String) : Bool :=
  match files.place path with
  | .ok place => files.isDirectory place
  | .error _ => false

/-- What a path leads to. -/
def entry (files : Files) (path : String) : Except FileFault FileEntry := do
  let place ← files.place path
  match files.get? place with
  | some entry => return entry
  | none => if files.isDirectory place then return .directory else throw .missing

/-- The lines of a file. A directory has one line, which cannot be read. -/
def source (files : Files) (path : String) : Except FileFault Source :=
  (files.entry path).map fun
    | .file bytes => .ofBytes bytes
    | .picture _ => .ofBytes pictureSignature
    | .directory => [.unreadable .isDirectory]

/-- The text of a file. -/
def text (files : Files) (path : String) : Except FileFault String := do
  match ← files.entry path with
  | .file bytes =>
    match String.fromUTF8? ⟨bytes.toArray⟩ with
    | some text => return text
    | none => throw .invalidText
  | .picture _ => throw .invalidText
  | .directory => throw .isDirectory

/-- The pictures below a directory. -/
def pictures (files : Files) (root : String) : Pictures := fun path =>
  let path := Path.join root path
  match files.entry path with
  | .ok (.picture picture) => .ok picture.text
  | .ok (.file _) => .error ⟨path, .invalidText⟩
  | .ok .directory => .error ⟨path, .isDirectory⟩
  | .error fault => .error ⟨path, fault⟩

/-- Puts an entry at a path whose directory need not be there yet. -/
def add (files : Files) (path : String) (entry : FileEntry) : Files :=
  let start : Place := if Path.isAbsolute path then ["/"] else []
  files.insert ((Path.segments path).foldl step start) entry

/-- Makes a directory in one that is there. -/
def makeDirectory (files : Files) (path : String) : Except FileFault Files := do
  let place ← files.place path
  if files.isPresent place then throw .alreadyExists
  return files.insert place .directory

/-- Makes a directory and all directories above it; `fuel` bounds their number. The files come back
also when this fails on the way. -/
def makeDirectories : Nat → Files → String → Files × Option FileFault
  | 0, files, _ => (files, some .missing)
  | fuel + 1, files, path =>
    if path = "" then (files, none)
    else match files.makeDirectory path with
      | .ok files => (files, none)
      | .error .missing =>
        match Path.parent? path with
        | none => (files, some .missing)
        | some parent =>
          match makeDirectories fuel files parent with
          | (files, some fault) => (files, some fault)
          | (files, none) =>
            match files.makeDirectory path with
            | .ok files => (files, none)
            | .error fault => (files, if files.holdsDirectory path then none else some fault)
      | .error fault => (files, if files.holdsDirectory path then none else some fault)

/-- Writes a text to a file in a directory that is there. -/
def create (files : Files) (path text : String) : Except FileFault Files := do
  let place ← files.place path
  if files.isDirectory place then throw .isDirectory
  return files.insert place (.file text.toUTF8.toList)

/-- Takes a file away. -/
def remove (files : Files) (path : String) : Files :=
  match files.place path with
  | .ok place => files.erase place
  | .error _ => files

/-- Moves what stands at a path to another one, where no directory may be. -/
def rename (files : Files) (path newPath : String) : Except FileFault Files := do
  let place ← files.place path
  match files.get? place with
  | none => throw .missing
  | some entry =>
    let newPlace ← files.place newPath
    if files.isDirectory newPlace then throw .isDirectory
    return (files.erase place).insert newPlace entry

/-- Makes all directories above a path. -/
def makeParents (files : Files) (path : String) : Files × Option FileFault :=
  let parent := (Path.parent? path).getD ""
  makeDirectories (parent.length + 1) files parent

/-- The path of a place. -/
def path (place : Place) : String := place.foldl Path.join ""

/-- The files that are new or different from before, by path. -/
def changes (files before : Files) : List (String × List UInt8) :=
  let changed := files.entries.filterMap fun (place, entry) =>
    match entry with
    | .file bytes =>
      if before.get? place = some entry then none else some (path place, bytes)
    | _ => none
  changed.mergeSort fun a b => a.1 ≤ b.1

end Files

end BlockScript
