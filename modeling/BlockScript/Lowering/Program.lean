import BlockScript.Lowering.Statement

/-!
# Lowering of programs

Every handler and every function becomes a script. A script that cannot be completed leaves one
error, and the blocks that were there before it.
-/

namespace BlockScript

namespace LowerContext

/-- The steps of a script after its first block. -/
def bodyStep (c : LowerContext) (body : List Stmt) : Step :=
  .attach .next (c.lowerBody body).content

/-- The script of a handler. -/
def lowerEvent (c : LowerContext) (kind : EventKind) (name : String) (param : Option Expr)
    (body : List Stmt) (span : Span) : Assembly :=
  match kind with
  | .custom =>
    match c.defs.events.get? name with
    | none => .failed (.undeclaredEvent name) span
    | some event =>
      assemble "event_whenbroadcastreceived"
        [.entity "BROADCAST_OPTION" name event.id, c.bodyStep body]
  | _ =>
    match c.catalog.hat? name with
    | none => .failed (.noHat name) span
    | some signature =>
      assemble signature.opcode
        (signature.fieldSteps ++
          c.placeAll ("@" ++ name) (signature.params.take 1) param.toList ++ [c.bodyStep body])

/-- What a prototype says of its function. -/
def prototype (f : Function) : Mutation where
  procedure := f.procedure
  argumentIds := f.params.map (·.id)
  argumentNames := f.params.map (·.name)
  argumentDefaults := f.params.map fun param => if param.type = .boolean then "false" else ""

/-- The block that shows the parameters of a function. -/
def lowerPrototype (f : Function) : Assembly :=
  let reporter (param : FunctionParam) : Step :=
    .input param.id.text
      (.assembly (assemble param.type.reporterOpcode [.text "VALUE" param.name] true))
  assemble "procedures_prototype" (f.params.map reporter ++ [.mutation (prototype f)]) true

/-- The script of a function. -/
def lowerFunction (c : LowerContext) (name : String) (body : List Stmt) (span : Span) : Assembly :=
  match c.defs.functions.get? name with
  | none => .failed (.undeclaredFunction name) span
  | some f =>
    assemble "procedures_definition"
      [.input "custom_block" (.assembly (lowerPrototype f)),
        { c with function := some f }.bodyStep body]

/-- The script of an item; declarations have none. -/
def lowerItem (c : LowerContext) : Stmt → Assembly
  | .event kind name param body span _ => c.lowerEvent kind name param body span
  | .funcDecl name _ body span _ => c.lowerFunction name body span
  | _ => {}

end LowerContext

/-- The result of lowering a program. -/
structure Lowering where
  /-- The graph. -/
  graph : Graph
  /-- The errors, one at most for each item. -/
  errors : List Diagnostic

/-- Lowers a program to a graph. -/
def Program.lower (catalog : Catalog) (types : TypeTable) (defs : Definitions)
    (program : Program) : Lowering :=
  let c : LowerContext := { defs, types, catalog }
  let scripts := program.statements.map c.lowerItem
  ⟨.ofScripts (scripts.filterMap (·.block)), scripts.filterMap (·.fault)⟩

end BlockScript
