import BlockScript.Definitions

/-!
# Block graphs

A graph is a list of blocks. A block is known by its place in the list. It refers to the block that
follows it and to the blocks in its inputs, and each of these refers back to it as its parent.
Blocks without a parent begin the scripts of a program.
-/

namespace BlockScript

/-- How a block is written where another one refers to it. -/
def blockName (id : Nat) : String := "block_" ++ toString id

/-- What an input holds. -/
inductive Input where
  /-- A value. -/
  | literal (value : Value)
  /-- A reporter, a menu, or the first block of a stack. -/
  | block (id : Nat)
  deriving DecidableEq

/-- What a field holds. -/
structure Field where
  /-- The selection. -/
  value : String
  /-- The variable, list or event that it refers to. -/
  entity : Option EntityId := none
  deriving DecidableEq

/-- What a prototype or a call says of its procedure. -/
structure Mutation where
  /-- The name, with a mark for each parameter. -/
  procedure : String
  /-- The identities of the parameters. -/
  argumentIds : List EntityId
  /-- The names of the parameters. -/
  argumentNames : List String := []
  /-- The values that the editor shows for the parameters. -/
  argumentDefaults : List String := []
  /-- Whether the procedure runs without a refresh of the screen. -/
  warp : Bool := false
  deriving DecidableEq

/-- What a block says by itself, without the blocks around it. -/
structure Face where
  /-- The kind of block. -/
  opcode : String
  /-- Whether it stands for a choice of its parent rather than for a step. -/
  shadow : Bool := false
  /-- The fields. -/
  fields : Table String Field := .empty
  /-- What it says of a procedure. -/
  mutation : Option Mutation := none
  deriving DecidableEq

/-- A block in a graph. -/
structure Node where
  /-- What it says by itself. -/
  face : Face
  /-- The block after it. -/
  next : Option Nat
  /-- The block that refers to it. -/
  parent : Option Nat
  /-- The inputs. -/
  inputs : Table String Input
  deriving DecidableEq

/-- Whether a block begins a script. -/
def Node.isTop (n : Node) : Bool := n.parent.isNone

/-- The blocks in the inputs of a block. -/
def Node.children (n : Node) : List Nat :=
  n.inputs.values.filterMap fun
    | .block id => some id
    | .literal _ => none

/-- The blocks of a program. -/
structure Graph where
  /-- The blocks, each at the place that is its number. -/
  nodes : List Node := []
  deriving DecidableEq

namespace Graph

/-- The blocks with their numbers. -/
def entries (g : Graph) : List (Nat × Node) := g.nodes.zipIdx.map fun (node, id) => (id, node)

/-- The number of blocks. -/
def size (g : Graph) : Nat := g.nodes.length

/-- The blocks that begin scripts. -/
def tops (g : Graph) : List Nat := (g.entries.filter (·.2.isTop)).map (·.1)

end Graph

end BlockScript
