import BlockScript.Proofs.Forest

/-!
# Graphs built step by step

A graph can also be built by steps: a block is added, or a block that is there is given a reference.
The layout of scripts is what such steps come to, in whatever order blocks are linked, if they are
added in the order of their numbers and each is given its references in the order of its contents.
So what is proved of the layout holds of a graph that is built by such steps.
-/

namespace BlockScript

open List

/-- A reference that a block is given. -/
inductive Reference where
  | input (name : String) (input : Input)
  | next (id : Nat)

/-- A block that refers to nothing yet. -/
def Node.unlinked (face : Face) (parent : Option Nat) : Node := ⟨face, none, parent, .empty⟩

/-- The block with one more reference, in the place of an earlier one under the same link. -/
def Node.refer (n : Node) : Reference → Node
  | .input name input => { n with inputs := n.inputs.insert name input }
  | .next id => { n with next := some id }

/-- A step in building a graph. -/
inductive Edit where
  /-- Add a block. -/
  | push (face : Face) (parent : Option Nat)
  /-- Give a reference to a block. -/
  | refer (id : Nat) (reference : Reference)

/-- The block that a step adds. -/
def Edit.pushed? : Edit → Option Node
  | .push face parent => some (.unlinked face parent)
  | .refer .. => none

/-- The reference that a step gives to a block. -/
def Edit.given? (id : Nat) : Edit → Option Reference
  | .push .. => none
  | .refer other reference => if other = id then some reference else none

/-- Whether steps refer from blocks that are there, with so many blocks before them. -/
def Edit.Timely : Nat → List Edit → Prop
  | _, [] => True
  | size, .push .. :: rest => Timely (size + 1) rest
  | size, .refer id _ :: rest => id < size ∧ Timely size rest

/-- The graph after a step. -/
def Graph.edit (g : Graph) : Edit → Graph
  | .push face parent => ⟨g.nodes ++ [.unlinked face parent]⟩
  | .refer id reference => ⟨g.nodes.modify id (·.refer reference)⟩

/-- The references of a block that holds these contents, numbered from `start` on. -/
def Contents.references (start : Nat) : Contents → List Reference
  | .empty => []
  | .literal name value rest => .input name (.literal value) :: rest.references start
  | .block (.input name) _ contents rest =>
    .input name (.block start) :: rest.references (start + 1 + contents.size)
  | .block .next _ contents rest => .next start :: rest.references (start + 1 + contents.size)
  | .block .loose _ contents rest => rest.references (start + 1 + contents.size)

/-- Steps leave each block with the references that they give to it, in order. -/
theorem Graph.getElem?_foldl_edit {edits : List Edit} {g : Graph}
    (htimely : Edit.Timely g.nodes.length edits) (id : Nat) :
    (edits.foldl edit g).nodes[id]? = (g.nodes ++ edits.filterMap Edit.pushed?)[id]?.map
      fun n => (edits.filterMap (Edit.given? id)).foldl Node.refer n := by
  induction edits generalizing g with
  | nil => simp
  | cons e rest ih =>
    cases e with
    | push face parent =>
      have hlater : Edit.Timely (g.edit (.push face parent)).nodes.length rest := by
        rw [edit, length_append]
        exact htimely
      rw [foldl_cons, ih hlater, edit, append_assoc]
      rfl
    | refer other reference =>
      have hlater : Edit.Timely (g.edit (.refer other reference)).nodes.length rest := by
        rw [edit, length_modify]
        exact htimely.2
      rw [foldl_cons, ih hlater, edit, filterMap_cons_none (f := Edit.pushed?) rfl]
      dsimp only
      by_cases hid : other = id
      · subst hid
        have hgiven : Edit.given? other (.refer other reference) = some reference := if_pos rfl
        rw [filterMap_cons_some hgiven, getElem?_append_left (by simpa using htimely.1),
          getElem?_append_left htimely.1, getElem?_modify_eq, Option.map_eq_map, Option.map_map]
        rfl
      · have hgiven : Edit.given? id (.refer other reference) = none := if_neg hid
        rw [filterMap_cons_none hgiven, getElem?_append, getElem?_append, length_modify,
          getElem?_modify_ne _ _ hid]

/-- A block that is given the references of contents holds them. -/
theorem Contents.foldl_refer (contents : Contents) (start : Nat) (n : Node) :
    (contents.references start).foldl Node.refer n =
      { n with
        next := (contents.nextFrom start).or n.next
        inputs := contents.inputsFrom start n.inputs } := by
  induction contents generalizing start n with
  | empty => rfl
  | literal name value rest ih => exact ih start _
  | block link face contents rest _ ih =>
    cases link with
    | next =>
      rw [references, foldl_cons, ih, nextFrom, Option.or_assoc]
      rfl
    | input name => exact ih _ _
    | loose => exact ih _ _

/-- Steps that add the blocks of scripts, and give each of them its references, come to the layout
of the scripts. -/
theorem Graph.foldl_edit_eq_ofScripts {edits : List Edit} {scripts : List Block}
    (htimely : Edit.Timely 0 edits) (hpushed : edits.filterMap Edit.pushed? =
      (placedFrom 0 scripts).map fun p => .unlinked p.block.face (p.holder.map Prod.fst))
    (hgiven : ∀ p ∈ placedFrom 0 scripts,
      edits.filterMap (Edit.given? p.id) = p.block.contents.references (p.id + 1)) :
    edits.foldl edit {} = ofScripts scripts := by
  suffices hnodes :
    (edits.foldl edit {}).nodes = (ofScripts scripts).nodes from congrArg Graph.mk hnodes
  refine ext_getElem? fun id => ?_
  rw [getElem?_foldl_edit (g := {}) htimely, hpushed, nodes_ofScripts, nil_append, getElem?_map,
    getElem?_map, Option.map_map]
  refine Option.map_congr fun p hp => ?_
  rw [Function.comp_apply, ← id_of_getElem? hp, hgiven p (mem_of_getElem? hp), Contents.foldl_refer,
    Placed.node, Contents.node]
  simp [Node.unlinked]

-- A statement is linked to the one before it at once, and to its hat when the body is complete.
example :
    [Edit.push { opcode := "hat" } none, .push { opcode := "first" } (some 0),
      .refer 1 (.input "STEPS" (.literal (.string "9"))), .push { opcode := "last" } (some 1),
      .refer 1 (.next 2), .refer 0 (.next 1)].foldl Graph.edit {} =
    .ofScripts [⟨{ opcode := "hat" }, .block .next { opcode := "first" }
      (.literal "STEPS" (.string "9") (.block .next { opcode := "last" } .empty .empty))
      .empty⟩] := by
  decide

end BlockScript
