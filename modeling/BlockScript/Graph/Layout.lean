import BlockScript.Graph

/-!
# Layout

Before blocks have numbers they form trees: a block holds literals and other blocks, each under a
link that says where. Layout numbers the blocks of a tree in the order in which they stand, every
block before the blocks it holds. So the number of a block follows from the sizes of what stands
before it.
-/

namespace BlockScript

/-- How a block refers to a block that it holds. -/
inductive Link where
  /-- By an input. -/
  | input (name : String)
  /-- As the block after it. -/
  | next
  /-- Not at all: the block was given up before it was complete. -/
  | loose
  deriving DecidableEq

/-- What a block holds, in order. -/
inductive Contents where
  | empty
  /-- A value in an input, and the rest. -/
  | literal (input : String) (value : Value) (rest : Contents)
  /-- A block with its own contents, and the rest. -/
  | block (link : Link) (face : Face) (contents rest : Contents)

namespace Contents

/-- The number of blocks. -/
def size : Contents → Nat
  | .empty => 0
  | .literal _ _ rest => rest.size
  | .block _ _ contents rest => 1 + contents.size + rest.size

/-- One after the other. -/
def append : Contents → Contents → Contents
  | .empty, more => more
  | .literal input value rest, more => .literal input value (rest.append more)
  | .block link face contents rest, more => .block link face contents (rest.append more)

/-- The inputs of a block that holds these contents, numbered from `start` on. A later content of
an input replaces an earlier one. -/
def inputsFrom (start : Nat) (inputs : Table String Input) : Contents → Table String Input
  | .empty => inputs
  | .literal name value rest => rest.inputsFrom start (inputs.insert name (.literal value))
  | .block (.input name) _ contents rest =>
    rest.inputsFrom (start + 1 + contents.size) (inputs.insert name (.block start))
  | .block _ _ contents rest => rest.inputsFrom (start + 1 + contents.size) inputs

/-- The block after a block that holds these contents, numbered from `start` on. A later one
replaces an earlier one. -/
def nextFrom (start : Nat) : Contents → Option Nat
  | .empty => none
  | .literal _ _ rest => rest.nextFrom start
  | .block .next _ contents rest => (rest.nextFrom (start + 1 + contents.size)).or (some start)
  | .block _ _ contents rest => rest.nextFrom (start + 1 + contents.size)

/-- The block with number `id` that holds these contents. -/
def node (face : Face) (parent : Option Nat) (id : Nat) (contents : Contents) : Node where
  face := face
  next := contents.nextFrom (id + 1)
  parent := parent
  inputs := contents.inputsFrom (id + 1) .empty

/-- The blocks held by `parent`, numbered from `start` on. -/
def nodes (parent start : Nat) : Contents → List Node
  | .empty => []
  | .literal _ _ rest => rest.nodes parent start
  | .block _ face contents rest =>
    node face (some parent) start contents :: contents.nodes start (start + 1) ++
      rest.nodes parent (start + 1 + contents.size)

/-- There are as many blocks as the size says. -/
theorem length_nodes (parent start : Nat) (contents : Contents) :
    (contents.nodes parent start).length = contents.size := by
  induction contents generalizing parent start with
  | empty => rfl
  | literal _ _ _ ih => exact ih parent start
  | block _ _ _ _ ihContents ihRest =>
    simp only [nodes, size, List.length_append, List.length_cons, ihContents, ihRest]
    omega

end Contents

/-- A block with all that it holds. -/
structure Block where
  /-- What it says by itself. -/
  face : Face
  /-- What it holds. -/
  contents : Contents := .empty

namespace Block

/-- The number of blocks in it, with itself. -/
def size (b : Block) : Nat := 1 + b.contents.size

/-- The contents that consist of a block. -/
def under (b : Block) (link : Link) (rest : Contents) : Contents :=
  .block link b.face b.contents rest

/-- The block with one more block at the end of what it holds. -/
def holding (b : Block) (link : Link) (other : Block) : Block :=
  { b with contents := b.contents.append (other.under link .empty) }

/-- The blocks of a script, numbered from `start` on. -/
def nodes (start : Nat) (b : Block) : List Node :=
  b.contents.node b.face none start :: b.contents.nodes start (start + 1)

end Block

namespace Graph

/-- The blocks of scripts, numbered from `start` on. -/
def layoutFrom (start : Nat) : List Block → List Node
  | [] => []
  | script :: rest => script.nodes start ++ layoutFrom (start + script.size) rest

/-- The graph of scripts. -/
def ofScripts (scripts : List Block) : Graph := ⟨layoutFrom 0 scripts⟩

end Graph

end BlockScript
