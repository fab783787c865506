import BlockScript.Compilation
import BlockScript.Diagnostic.Notice
import BlockScript.Json

/-!
# Compilations as JSON

The JSON values of graphs, definitions and diagnostics, and the target: the tables of variables,
lists and events under their identities, together with the blocks. The target is what a build
writes.
-/

namespace BlockScript

/-- The value of a literal. -/
def Value.json : Value → Json
  | .number n => .number n
  | .string s => .string s
  | .boolean b => .bool b

/-- The value of a type. -/
def DataType.json (t : DataType) : Json := .string t.label

/-- The value of a position. -/
def Position.json (p : Position) : Json :=
  .object [("line", .integer p.line), ("column", .integer p.column)]

/-- The value of a span. -/
def Span.json (s : Span) : Json := .object [("start", s.start.json), ("end", s.stop.json)]

/-- The value of an identity. -/
def EntityId.json (id : EntityId) : Json := .string id.text

/-- The value of a notice. -/
def Notice.json (n : Notice) : Json :=
  .object ([("message", .string n.message), ("span", n.span.json), ("kind", .string n.stage.label),
    ("severity", .string n.severity.label)] ++ n.path.toList.map fun path => ("path", .string path))

/-- The value of a diagnostic. -/
def Diagnostic.json (d : Diagnostic) : Json := d.notice.json

/-- The value of a table with texts as keys. -/
def Table.json {α : Type} (f : α → Json) (t : Table String α) : Json :=
  .object (t.entries.map fun (key, value) => (key, f value))

/-- The value of a reference to a block. -/
def blockReference (id : Nat) : Json := .string (blockName id)

/-- The value of an input. -/
def Input.json : Input → Json
  | .literal value => .object [("literal", value.json)]
  | .block id => .object [("block", blockReference id)]

/-- The value of a field. -/
def Field.json (f : Field) : Json :=
  .object (("value", .string f.value) :: f.entity.toList.map fun id => ("id", id.json))

/-- A field of an object that is left out if the list is empty. -/
def unlessEmpty (name : String) (items : List String) : List (String × Json) :=
  if items.isEmpty then [] else [(name, .ofList .string items)]

/-- The value of what a block says of a procedure. -/
def Mutation.json (m : Mutation) : Json :=
  .object ([("proccode", .string m.procedure),
      ("argumentIds", .ofList EntityId.json m.argumentIds)] ++
    unlessEmpty "argumentNames" m.argumentNames ++
    unlessEmpty "argumentDefaults" m.argumentDefaults ++ [("warp", .bool m.warp)])

/-- The value of a block. -/
def Node.json (n : Node) : Json :=
  .object ([("opcode", .string n.face.opcode), ("next", .ofOption blockReference n.next),
    ("parent", .ofOption blockReference n.parent), ("inputs", n.inputs.json Input.json),
    ("fields", n.face.fields.json Field.json), ("shadow", .bool n.face.shadow),
    ("topLevel", .bool n.isTop)] ++ n.face.mutation.toList.map fun m => ("mutation", m.json))

/-- The value of a graph. -/
def Graph.json (g : Graph) : Json :=
  .object (g.entries.map fun (id, node) => (blockName id, node.json))

/-- The value of a variable. -/
def Variable.json (v : Variable) : Json :=
  .object [("id", v.id.json), ("name", .string v.name), ("dataType", v.type.json),
    ("span", v.span.json), ("used", .bool v.used)]

/-- The value of a list. -/
def ListVariable.json (l : ListVariable) : Json :=
  .object [("id", l.id.json), ("name", .string l.name), ("elementType", l.element.json),
    ("values", .ofList Value.json l.values), ("span", l.span.json), ("used", .bool l.used)]

/-- The value of a constant. -/
def Constant.json (c : Constant) : Json :=
  .object [("name", .string c.name), ("dataType", c.type.json),
    ("value", .ofOption Value.json c.value), ("span", c.span.json), ("used", .bool c.used)]

/-- The value of a parameter. -/
def FunctionParam.json (p : FunctionParam) : Json :=
  .object [("name", .string p.name), ("dataType", p.type.json), ("argumentId", p.id.json)]

/-- The value of a function. -/
def Function.json (f : Function) : Json :=
  .object [("name", .string f.name), ("params", .ofList FunctionParam.json f.params),
    ("proccode", .string f.procedure), ("span", f.span.json), ("endLine", .integer f.endLine),
    ("used", .bool f.used)]

/-- The value of an event. -/
def CustomEvent.json (e : CustomEvent) : Json :=
  .object [("id", e.id.json), ("name", .string e.name), ("span", e.span.json),
    ("endLine", .integer e.endLine), ("used", .bool e.used)]

/-- The value of definitions. -/
def Definitions.json (d : Definitions) : Json :=
  .object [("variables", d.scalars.json Variable.json), ("lists", d.lists.json ListVariable.json),
    ("constants", d.constants.json Constant.json), ("functions", d.functions.json Function.json),
    ("events", d.events.json CustomEvent.json)]

/-- The value of a compilation. -/
def Compilation.json (c : Compilation) : Json :=
  .object [("blocks", c.graph.json), ("definitions", c.defs.json),
    ("warnings", .ofList Diagnostic.json c.warnings)]

/-- What a build writes for a program. -/
structure Target where
  /-- The variables by identity, with names and first values. -/
  scalars : Table String (String × Value)
  /-- The lists by identity, with names and first items. -/
  lists : Table String (String × List Value)
  /-- The names of the events by identity. -/
  broadcasts : Table String String
  /-- The blocks. -/
  graph : Graph

/-- The value of a variable before its initializer has run. -/
def Variable.first (v : Variable) : Value := v.type.default?.getD (.string "")

/-- The target of a compilation. -/
def Compilation.target (c : Compilation) : Target where
  scalars := .ofList (c.defs.scalars.values.map fun v => (v.id.text, v.name, v.first))
  lists := .ofList (c.defs.lists.values.map fun l => (l.id.text, l.name, l.values))
  broadcasts := .ofList (c.defs.events.values.map fun e => (e.id.text, e.name))
  graph := c.graph

/-- The value of a target. -/
def Target.json (t : Target) : Json :=
  .object [
    ("variables", t.scalars.json fun (name, first) => .array [.string name, first.json]),
    ("lists", t.lists.json fun (name, items) => .array [.string name, .ofList Value.json items]),
    ("broadcasts", t.broadcasts.json .string), ("blocks", t.graph.json)]

/-- The value of a line of the listing of a catalog. -/
def CatalogEntry.json (e : CatalogEntry) : Json :=
  .object [("category", .string e.category), ("name", .string e.name),
    ("description", .string e.description), ("signatures", .ofList .string e.signatures)]

end BlockScript
