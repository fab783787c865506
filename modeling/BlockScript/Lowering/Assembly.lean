import BlockScript.Diagnostic
import BlockScript.Graph.Layout

/-!
# Assemblies

A block is assembled step by step: fields, what it says of a procedure, contents of inputs, the
block after it. A fault ends the assembly. What was there before the fault stays, and a part that
has a fault itself stays as a loose part that nothing refers to.
-/

namespace BlockScript

/-- The result of assembling a block. -/
structure Assembly where
  /-- The block, as far as it got. -/
  block : Option Block := none
  /-- Why it is not complete. -/
  fault : Option Diagnostic := none

/-- The assembly that fails before there is a block. -/
def Assembly.failed (fault : LoweringFault) (span : Span) : Assembly :=
  { fault := some (.lowering fault span) }

/-- What is to be put under a link. -/
inductive Content where
  /-- A value. -/
  | literal (value : Value)
  /-- A block; or nothing, where the assembly has no block. -/
  | assembly (a : Assembly)

/-- The content that leaves an input empty. -/
def Content.nothing : Content := .assembly {}

/-- The content that fails before there is a block. -/
def Content.failed (fault : LoweringFault) (span : Span) : Content :=
  .assembly (.failed fault span)

/-- A step in the assembly of a block. -/
inductive Step where
  | field (name : String) (field : Field)
  | mutation (m : Mutation)
  | attach (link : Link) (content : Content)
  | fault (d : Diagnostic)

/-- The step that puts a content into an input. -/
def Step.input (name : String) (content : Content) : Step := .attach (.input name) content

/-- The step that sets a field to a text. -/
def Step.text (name value : String) : Step := .field name { value }

/-- The step that sets a field to a variable, a list or an event. -/
def Step.entity (name value : String) (id : EntityId) : Step :=
  .field name { value, entity := some id }

/-- The step that fails. -/
def Step.failed (fault : LoweringFault) (span : Span) : Step := .fault (.lowering fault span)

/-- A literal under a link; only inputs hold literals. -/
def Link.literal (link : Link) (value : Value) (rest : Contents) : Contents :=
  match link with
  | .input name => .literal name value rest
  | _ => rest

/-- Takes the steps up to the first fault. -/
def assembleFrom (face : Face) : List Step → Block × Option Diagnostic
  | [] => (⟨face, .empty⟩, none)
  | .field name field :: rest =>
    assembleFrom { face with fields := face.fields.insert name field } rest
  | .mutation m :: rest => assembleFrom { face with mutation := some m } rest
  | .fault d :: _ => (⟨face, .empty⟩, some d)
  | .attach link (.literal value) :: rest =>
    let (b, fault) := assembleFrom face rest
    ({ b with contents := link.literal value b.contents }, fault)
  | .attach link (.assembly ⟨some held, none⟩) :: rest =>
    let (b, fault) := assembleFrom face rest
    ({ b with contents := held.under link b.contents }, fault)
  | .attach _ (.assembly ⟨none, none⟩) :: rest => assembleFrom face rest
  | .attach _ (.assembly ⟨some held, some d⟩) :: _ => (⟨face, held.under .loose .empty⟩, some d)
  | .attach _ (.assembly ⟨none, some d⟩) :: _ => (⟨face, .empty⟩, some d)

/-- Assembles a block. -/
def assemble (opcode : String) (steps : List Step) (shadow : Bool := false) : Assembly :=
  let (b, fault) := assembleFrom { opcode, shadow } steps
  ⟨some b, fault⟩

/-- Assembles a block for an input. -/
def Content.ofSteps (opcode : String) (steps : List Step) : Content :=
  .assembly (assemble opcode steps)

end BlockScript
