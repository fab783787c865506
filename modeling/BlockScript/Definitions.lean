import BlockScript.Expr
import BlockScript.Fault.Analysis
import BlockScript.Table

/-!
# Definitions

What a program declares: variables, lists, constants, functions and events, each in a table of its
own. Variables, lists, events and parameters of functions get identities that the block graph refers
to; one counter numbers them all, so no two identities are equal.
-/

namespace BlockScript

/-- The identity of something that the block graph refers to. -/
structure EntityId where
  /-- What it identifies. -/
  stem : String
  /-- Its number. -/
  number : Nat
  deriving DecidableEq

/-- How an identity is written. -/
def EntityId.text (id : EntityId) : String := id.stem ++ "_" ++ toString id.number

/-- A variable that holds one value. -/
structure Variable where
  id : EntityId
  name : String
  type : DataType
  span : Span
  used : Bool := false
  deriving DecidableEq

/-- A variable that holds a list. -/
structure ListVariable where
  id : EntityId
  name : String
  element : DataType
  /-- The first items, once they are known. -/
  values : List Value := []
  span : Span
  used : Bool := false
  deriving DecidableEq

/-- The type of a list. -/
def ListVariable.type (l : ListVariable) : DataType :=
  if l.element = .string then .stringList else .numberList

/-- A constant. -/
structure Constant where
  name : String
  type : DataType
  /-- The value, once it is known. -/
  value : Option Value
  span : Span
  used : Bool := false
  deriving DecidableEq

/-- A parameter of a declared function. -/
structure FunctionParam where
  name : String
  type : DataType
  id : EntityId
  deriving DecidableEq

/-- A function. -/
structure Function where
  name : String
  params : List FunctionParam
  /-- The name, and a mark for each parameter that says what it takes. -/
  procedure : String
  span : Span
  endLine : Nat
  used : Bool := false
  deriving DecidableEq

/-- An event that the program declares. -/
structure CustomEvent where
  id : EntityId
  name : String
  span : Span
  endLine : Nat
  used : Bool := false
  deriving DecidableEq

/-- The parameter with a name; the first one, should there be several. -/
def Function.param? (f : Function) (name : String) : Option FunctionParam :=
  f.params.find? (·.name = name)

/-- The types of the parameters. -/
def Function.paramTypes (f : Function) : List DataType := f.params.map (·.type)

/-- What a program declares. -/
structure Definitions where
  scalars : Table String Variable := .empty
  lists : Table String ListVariable := .empty
  constants : Table String Constant := .empty
  functions : Table String Function := .empty
  events : Table String CustomEvent := .empty
  /-- The next free number for identities. -/
  nextId : Nat := 0

/-- The mark of a parameter in the name of a procedure. -/
def DataType.procedureMark : DataType → String
  | .number => " %n"
  | .boolean => " %b"
  | _ => " %s"

namespace Definitions

/-- The next identity for a stem. -/
def freshId (d : Definitions) (stem : String) : EntityId := ⟨stem, d.nextId⟩

/-- Takes the next identity for a stem. -/
def takeId (d : Definitions) (stem : String) : EntityId × Definitions :=
  (d.freshId stem, { d with nextId := d.nextId + 1 })

/-- Where a name is declared. -/
def declaredAt? (d : Definitions) (name : String) : Option Span :=
  (d.scalars.get? name).map (·.span) <|> (d.lists.get? name).map (·.span) <|>
    (d.constants.get? name).map (·.span) <|> (d.functions.get? name).map (·.span) <|>
    (d.events.get? name).map (·.span)

/-- Declares a variable. -/
def addVariable (d : Definitions) (name : String) (type : DataType) (span : Span) : Definitions :=
  { d with
    scalars := d.scalars.insert name { id := d.freshId "var", name, type, span }
    nextId := d.nextId + 1 }

/-- Declares a list. -/
def addList (d : Definitions) (name : String) (element : DataType) (span : Span) : Definitions :=
  { d with
    lists := d.lists.insert name { id := d.freshId "list", name, element, span }
    nextId := d.nextId + 1 }

/-- Declares a constant. -/
def addConstant (d : Definitions) (name : String) (type : DataType) (value : Option Value)
    (span : Span) : Definitions :=
  { d with constants := d.constants.insert name { name, type, value, span } }

/-- The parameters of a function, with identities numbered from `next` on. -/
def numberParams (next : Nat) : List (String × DataType) → List FunctionParam
  | [] => []
  | (name, type) :: rest => ⟨name, type, ⟨"arg", next⟩⟩ :: numberParams (next + 1) rest

/-- Declares a function. -/
def addFunction (d : Definitions) (name : String) (params : List (String × DataType)) (span : Span)
    (endLine : Nat) : Definitions :=
  let procedure := name ++ String.join (params.map fun param => param.2.procedureMark)
  { d with
    functions := d.functions.insert name
      { name, params := numberParams d.nextId params, procedure, span, endLine }
    nextId := d.nextId + params.length }

/-- Declares an event. -/
def addEvent (d : Definitions) (name : String) (span : Span) (endLine : Nat) : Definitions :=
  { d with
    events := d.events.insert name { id := d.freshId "msg", name, span, endLine }
    nextId := d.nextId + 1 }

/-- Marks a variable as used. -/
def useVariable (d : Definitions) (name : String) : Definitions :=
  { d with scalars := d.scalars.modify name ({ · with used := true }) }

/-- Marks a list as used. -/
def useList (d : Definitions) (name : String) : Definitions :=
  { d with lists := d.lists.modify name ({ · with used := true }) }

/-- Marks a constant as used. -/
def useConstant (d : Definitions) (name : String) : Definitions :=
  { d with constants := d.constants.modify name ({ · with used := true }) }

/-- Marks a function as used. -/
def useFunction (d : Definitions) (name : String) : Definitions :=
  { d with functions := d.functions.modify name ({ · with used := true }) }

/-- Marks an event as used. -/
def useEvent (d : Definitions) (name : String) : Definitions :=
  { d with events := d.events.modify name ({ · with used := true }) }

/-- The declarations that are never used, kind by kind. -/
def unusedByKind (d : Definitions) : List (DeclarationKind × String × Span) :=
  (d.scalars.values.filter (!·.used)).map (fun v => (.variable, v.name, v.span)) ++
  (d.lists.values.filter (!·.used)).map (fun l => (.list, l.name, l.span)) ++
  (d.constants.values.filter (!·.used)).map (fun c => (.constant, c.name, c.span)) ++
  (d.functions.values.filter (!·.used)).map (fun f => (.function, f.name, f.span)) ++
  (d.events.values.filter (!·.used)).map (fun e => (.event, e.name, e.span))

/-- The declarations that are never used, in the order of their places. -/
def unused (d : Definitions) : List (DeclarationKind × String × Span) :=
  d.unusedByKind.mergeSort fun a b => a.2.2.start.precedes b.2.2.start

/-- The value of an expression that is known before it is run: that of a literal, or of a name of a
constant with a known value. -/
def staticValue? (d : Definitions) (e : Expr) : Option Value :=
  match e.ungrouped with
  | .literal _ value => some value
  | .ident _ name => (d.constants.get? name).bind (·.value)
  | _ => none

end Definitions

/-- The types of expression nodes, by their numbers. -/
abbrev TypeTable := Table Nat DataType

end BlockScript
