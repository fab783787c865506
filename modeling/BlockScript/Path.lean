/-!
# Paths

A path is a text of segments with slashes between them. It is absolute if it starts with a slash.
Empty segments and segments that are a dot do not count, except for a dot at the very start. What a
path leaves of its text when it is cut is kept as it was written.
-/

namespace BlockScript.Path

/-- The name of the configuration file. -/
def configName : String := "blockc.json"

/-- What takes the place of the extension in the name of an output. -/
def outputSuffix : String := ".blocks.json"

/-- Whether a path is absolute. -/
def isAbsolute (path : String) : Bool := path.toList.head? == some '/'

/-- The pieces of a text between slashes. -/
def split : List Char → List (List Char)
  | [] => [[]]
  | c :: rest =>
    if c = '/' then [] :: split rest
    else match split rest with
      | [] => [[c]]
      | piece :: more => (c :: piece) :: more

/-- The segments of a path, without the slash in front of an absolute path. -/
def segments (path : String) : List String :=
  let cs := path.toList
  (split (if isAbsolute path then cs.drop 1 else cs)).map String.ofList

/-- Whether a segment counts. -/
def counts (segment : String) : Bool := segment ≠ "" && segment ≠ "."

/-- Segments without those at the end that do not count. -/
def trimEnd (segments : List String) : List String :=
  (segments.reverse.dropWhile (!counts ·)).reverse

/-- Segments up to the last one that counts. A dot at the start of a relative path counts. -/
def significant (absolute : Bool) : List String → List String
  | [] => []
  | first :: rest =>
    if !absolute && first = "." then first :: trimEnd rest else trimEnd (first :: rest)

/-- The path of segments. -/
def ofSegments (absolute : Bool) (segments : List String) : String :=
  (if absolute then "/" else "") ++ "/".intercalate segments

/-- The path without its last segment. -/
def parent? (path : String) : Option String :=
  match significant (isAbsolute path) (segments path) with
  | [] => none
  | found =>
    some (ofSegments (isAbsolute path) (significant (isAbsolute path) found.dropLast))

/-- The name of the file at a path. Paths that end in a dot or in two dots name no file. -/
def fileName? (path : String) : Option String :=
  (significant (isAbsolute path) (segments path)).getLast?.filter fun name =>
    name ≠ "." && name ≠ ".."

/-- A name without its extension. A dot at the start of a name begins no extension. -/
def stem (name : String) : String :=
  let reversed := name.toList.reverse
  match reversed.dropWhile (· ≠ '.') with
  | '.' :: before@(_ :: _) => String.ofList before.reverse
  | _ => name

/-- A path taken from a directory. An absolute path stays as it is. -/
def join (directory path : String) : String :=
  if isAbsolute path then path
  else if directory = "" || directory.toList.getLast? = some '/' then directory ++ path
  else directory ++ "/" ++ path

/-- The directory of a source file; a dot if its path is only a name. -/
def directory (source : String) : String :=
  match parent? source with
  | some dir => if dir = "" then "." else dir
  | none => "."

/-- The configuration file in a directory. -/
def config (directory : String) : String := join directory configName

/-- Where the output for a source goes: into the given directory, or else next to the source. -/
def output (source : String) (out : Option String) : String :=
  let name := (fileName? source).elim "out" stem
  join (out.getD (directory source)) (name ++ outputSuffix)

/-- Where the output for a source is prepared. -/
def staging (source : String) (out : Option String) : String := output source out ++ ".partial"

end BlockScript.Path
