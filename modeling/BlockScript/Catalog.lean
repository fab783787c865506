import BlockScript.Table
import BlockScript.Value

/-!
# Catalogs

A catalog is the vocabulary that a robot brings along: events, properties to read, properties to
write, statements and functions. Each entry has signatures, and each signature says which block it
becomes and where the block takes its arguments.
-/

namespace BlockScript

/-- Where a block takes an argument. -/
inductive Slot where
  /-- An input that holds a literal or a reporter block. -/
  | input (name : String)
  /-- A field that holds a value known at compile time. -/
  | field (name : String)
  /-- An input that holds a menu block with the value in a field, or a reporter block. -/
  | menu (input opcode field : String)
  /-- A field that names a list. -/
  | list (field : String)
  deriving DecidableEq

/-- A parameter of a signature. -/
structure ParamSpec where
  /-- The name. -/
  name : String
  /-- The type. -/
  type : DataType
  /-- Where the block takes the argument. -/
  slot : Slot
  /-- The texts that are allowed, if not all are. -/
  options : Option (List String) := none
  deriving DecidableEq

/-- One way to use an entry of the catalog. -/
structure Signature where
  /-- The parameters. -/
  params : List ParamSpec
  /-- The type of the result, if there is one. -/
  result : Option DataType := none
  /-- The block. -/
  opcode : String
  /-- Fields of the block with fixed values. -/
  fields : List (String × String) := []
  /-- Whether nothing after the block is ever run. -/
  terminates : Bool := false
  deriving DecidableEq

/-- An event, a readable property, a statement or a function. -/
structure Builtin where
  /-- The name. -/
  name : String
  /-- What it does. -/
  description : String
  /-- The ways to use it. -/
  signatures : List Signature
  deriving DecidableEq

/-- A writable property. -/
structure Property where
  /-- The name. -/
  name : String
  /-- The type. -/
  type : DataType
  /-- What it is. -/
  description : String
  /-- How it is set. -/
  set : Signature
  /-- How it is changed by a difference; the first signature counts. -/
  changes : List Signature := []
  deriving DecidableEq

/-- The vocabulary of a robot. -/
structure Catalog where
  /-- The events. -/
  events : Table String Builtin
  /-- The readable properties. -/
  reporters : Table String Builtin
  /-- The writable properties. -/
  properties : Table String Property
  /-- The entries that are statements. -/
  statements : Table String Builtin
  /-- The entries that return a value. -/
  functions : Table String Builtin

/-- Whether a signature takes arguments of these types, in this order. -/
def Signature.accepts (s : Signature) (types : List DataType) : Bool :=
  s.params.map (·.type) == types

/-- A signature as it is shown for the name of its entry. -/
def Signature.describe (s : Signature) (name : String) : String :=
  let params := s.params.map fun p => p.name ++ ": " ++ p.type.spelling
  let head := name ++ "(" ++ ", ".intercalate params ++ ")"
  match s.result with
  | some type => head ++ " -> " ++ type.spelling
  | none => head

/-- The first signature that takes arguments of these types. -/
def Builtin.resolve (b : Builtin) (types : List DataType) : Option Signature :=
  b.signatures.find? (·.accepts types)

/-- All signatures as they are shown. -/
def Builtin.candidates (b : Builtin) : List String := b.signatures.map (·.describe b.name)

/-- How a property is changed by a difference, if it can be. -/
def Property.change? (p : Property) : Option Signature := p.changes.head?

/-- A line of the listing of a catalog. -/
structure CatalogEntry where
  /-- The category. -/
  category : String
  /-- The name. -/
  name : String
  /-- What it does. -/
  description : String
  /-- The ways to use it. -/
  signatures : List String

namespace Catalog

/-- Entries under their names. Of two entries with one name the later counts, at the place of the
first. -/
def index (entries : List Builtin) : Table String Builtin :=
  .ofList (entries.map fun b => (b.name, b))

/-- The catalog with the given entries. -/
def ofLists (events reporters : List Builtin) (properties : List Property)
    (statements functions : List Builtin) : Catalog where
  events := index events
  reporters := index reporters
  properties := .ofList (properties.map fun p => (p.name, p))
  statements := index statements
  functions := index functions

/-- The hat of an event: its first signature. -/
def hat? (c : Catalog) (name : String) : Option Signature :=
  (c.events.get? name).bind (·.signatures.head?)

/-- The reporter of a readable property: its first signature. -/
def reporter? (c : Catalog) (name : String) : Option Signature :=
  (c.reporters.get? name).bind (·.signatures.head?)

/-- Whether a name is in the catalog. -/
def defines (c : Catalog) (name : String) : Bool :=
  c.events.contains name || c.reporters.contains name || c.properties.contains name ||
    c.statements.contains name || c.functions.contains name

/-- The listing of a catalog, category by category. -/
def listing (c : Catalog) : List CatalogEntry :=
  let entry (category : String) (b : Builtin) : CatalogEntry :=
    ⟨category, b.name, b.description, b.candidates⟩
  c.events.values.map (entry "event") ++ c.statements.values.map (entry "statement") ++
    c.functions.values.map (entry "function") ++ c.reporters.values.map (entry "variable") ++
    c.properties.values.map fun p =>
      ⟨"property", p.name, p.description, [p.name ++ " = " ++ p.type.spelling]⟩

end Catalog

end BlockScript
