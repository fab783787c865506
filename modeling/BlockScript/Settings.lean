import BlockScript.Compilation
import BlockScript.Json
import BlockScript.Path
import BlockScript.Settings.Document

/-!
# Settings

The configuration of the compiler. A file gives it as an object, of which every field may be
missing, or as an array of the fields in order, which may end early.
-/

namespace BlockScript

/-- The configuration of the compiler. -/
structure Settings where
  /-- The version of the format. -/
  version : Nat := 1
  /-- The macros that are defined before the first line. -/
  defines : List String := []
  /-- Whether to warn about declarations that are never used. -/
  warnUnused : Bool := true
  /-- Whether to warn about statements that are never run. -/
  warnUnreachable : Bool := true
  /-- Whether a warning is as bad as an error. -/
  warningsAsErrors : Bool := false
  /-- The directory of pictures; that of the source if it is missing. -/
  imageRoot : Option String := none
  deriving DecidableEq

namespace Document

/-- A version: a whole number of at most 32 bits. -/
def version? : Document → Option Nat
  | .integer n => if n < Nat.pow 2 32 then some n else none
  | _ => none

/-- A truth value. -/
def flag? : Document → Option Bool
  | .bool b => some b
  | _ => none

/-- A text that has a value. -/
def text? : Document → Option String
  | .text value => value
  | _ => none

/-- An array of texts that have values. -/
def texts? : Document → Option (List String)
  | .array items => items.mapM text?
  | _ => none

/-- A text that may be missing. -/
def optionalText? : Document → Option (Option String)
  | .null => some none
  | d => d.text?.map some

end Document

namespace Settings

/-- The names of the fields, in order. -/
def fieldNames : List String :=
  ["version", "defines", "warnUnused", "warnUnreachable", "warningsAsErrors", "imageRoot"]

/-- Sets a field, if it is known and its value fits; other fields do not count. -/
def setField (s : Settings) (name : String) (value : Document) : Option Settings :=
  match name with
  | "version" => value.version?.map fun version => { s with version }
  | "defines" => value.texts?.map fun defines => { s with defines }
  | "warnUnused" => value.flag?.map fun warnUnused => { s with warnUnused }
  | "warnUnreachable" => value.flag?.map fun warnUnreachable => { s with warnUnreachable }
  | "warningsAsErrors" => value.flag?.map fun warningsAsErrors => { s with warningsAsErrors }
  | "imageRoot" => value.optionalText?.map fun imageRoot => { s with imageRoot }
  | _ => some s

/-- Sets the fields of an object. All names must have values, and no known field comes twice; `seen`
holds the names before. -/
def setFields (s : Settings) (seen : List String) :
    List (Option String × Document) → Option Settings
  | [] => some s
  | (none, _) :: _ => none
  | (some name, value) :: rest =>
    if fieldNames.contains name && seen.contains name then none
    else match s.setField name value with
      | some s => s.setFields (name :: seen) rest
      | none => none

/-- Sets fields in order. There must be a field for every value. -/
def setItems (s : Settings) : List String → List Document → Option Settings
  | _, [] => some s
  | [], _ :: _ => none
  | name :: names, value :: rest =>
    match s.setField name value with
    | some s => s.setItems names rest
    | none => none

/-- The settings of a document. -/
def ofDocument : Document → Option Settings
  | .object fields => setFields {} [] fields
  | .array items => setItems {} fieldNames items
  | _ => none

/-- The settings that a text gives. -/
def read (text : String) : Option Settings := (Document.read text).bind ofDocument

/-- The options for the compiler. -/
def options (s : Settings) : CompileOptions where
  defines := s.defines
  analysis := ⟨s.warnUnused, s.warnUnreachable⟩
  warningsAsErrors := s.warningsAsErrors

/-- The settings with more macros, which come last and so win. -/
def withDefines (s : Settings) (defines : List String) : Settings :=
  { s with defines := s.defines ++ defines }

/-- The directory of the pictures of a source. -/
def imageRootFor (s : Settings) (source : String) : String :=
  match s.imageRoot with
  | some root => Path.join (Path.directory source) root
  | none => Path.directory source

/-- The settings as JSON. -/
def json (s : Settings) : Json :=
  .object [("version", .integer s.version), ("defines", .ofList .string s.defines),
    ("warnUnused", .bool s.warnUnused), ("warnUnreachable", .bool s.warnUnreachable),
    ("warningsAsErrors", .bool s.warningsAsErrors),
    ("imageRoot", .ofOption .string s.imageRoot)]

/-- The text of a configuration file with these settings. -/
def text (s : Settings) : String := s.json.pretty

/-- A truth value in the schema. -/
def flagSchema (description : List (String × Json)) (default : Bool) : Json :=
  .object (description ++ [("default", .bool default), ("type", .string "boolean")])

/-- The description of a field in the schema. -/
def described (text : String) : List (String × Json) := [("description", .string text)]

/-- The JSON schema of configuration files. -/
def schema : Json :=
  .object [
    ("$schema", .string "http://json-schema.org/draft-07/schema#"),
    ("title", .string "Settings"),
    ("description", .string
      "Compiler configuration read from `blockc.json`. Every field is optional in the file."),
    ("type", .string "object"),
    ("properties", .object [
      ("defines", .object
        (described "Macros defined before the first line, as `NAME` or `NAME=VALUE`." ++
          [("default", .array []), ("type", .string "array"),
            ("items", .object [("type", .string "string")])])),
      ("imageRoot", .object
        (described
            "Directory image paths resolve against. Defaults to the source file's directory." ++
          [("default", .null), ("type", .ofList .string ["string", "null"])])),
      ("version", .object
        [("default", .integer 1), ("type", .string "integer"), ("format", .string "uint32"),
          ("minimum", .number 0.0)]),
      ("warnUnreachable",
        flagSchema (described "Warn about statements after `loop:` or a stop block.") true),
      ("warnUnused", flagSchema
        (described
          "Warn about variables, lists, constants, functions and events never used.") true),
      ("warningsAsErrors", flagSchema [] false)])]

end Settings

end BlockScript
