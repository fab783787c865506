import BlockScript.Graph.Layout
import BlockScript.Proofs.Tables
import Mathlib.Data.List.Nodup
import Mathlib.Data.List.Perm.Basic
import Mathlib.Logic.Relation

/-!
# Layouts are forests

A block is well linked if each block that it holds has a link of its own, an input or the place
after it, and if menus and other shadows stand in inputs only. The graph of well linked scripts is a
forest: a script begins with a block without a parent, and every other block is referred to exactly
once, by its parent, which comes before it.
-/

namespace BlockScript

open List

variable {contents : Contents} {name : String} {parent start id i : Nat} {q p : Placed}

/-- The blocks that a block refers to. -/
def Node.references (n : Node) : List Nat := n.next.toList ++ n.children

/-- A block at its place in a graph. -/
structure Placed where
  /-- The number of the block. -/
  id : Nat
  /-- The block that holds it, and how; a script is held by none. -/
  holder : Option (Nat × Link)
  /-- The block with all that it holds. -/
  block : Block

/-- The block as it stands in the graph. -/
def Placed.node (p : Placed) : Node :=
  p.block.contents.node p.block.face (p.holder.map Prod.fst) p.id

namespace Contents

/-- The links of what a block holds, in order. -/
def links : Contents → List Link
  | .empty => []
  | .literal input _ rest => .input input :: rest.links
  | .block link _ _ rest => link :: rest.links

/-- Whether every block in the contents has a link of its own, and shadows have inputs. -/
def Linked : Contents → Prop
  | .empty => True
  | .literal input _ rest => .input input ∉ rest.links ∧ rest.Linked
  | .block link face contents rest =>
    link ≠ .loose ∧ link ∉ rest.links ∧
      (face.shadow = true → link ≠ .next ∧ .next ∉ contents.links) ∧ contents.Linked ∧ rest.Linked

/-- The blocks that the block `parent` holds itself, numbered from `start` on. -/
def heads (parent start : Nat) : Contents → List Placed
  | .empty => []
  | .literal _ _ rest => rest.heads parent start
  | .block link face contents rest =>
    ⟨start, some (parent, link), ⟨face, contents⟩⟩ :: rest.heads parent (start + 1 + contents.size)

/-- All blocks in the contents of the block `parent`, numbered from `start` on. -/
def placed (parent start : Nat) : Contents → List Placed
  | .empty => []
  | .literal _ _ rest => rest.placed parent start
  | .block link face contents rest =>
    ⟨start, some (parent, link), ⟨face, contents⟩⟩ :: contents.placed start (start + 1) ++
      rest.placed parent (start + 1 + contents.size)

end Contents

/-- The blocks that a block holds itself. -/
def Placed.children (p : Placed) : List Placed := p.block.contents.heads p.id (p.id + 1)

/-- Whether a block and all in it are well linked. -/
def Block.Linked (b : Block) : Prop :=
  b.contents.Linked ∧ (b.face.shadow = true → .next ∉ b.contents.links)

/-- The blocks of a script at their places. -/
def Block.placed (start : Nat) (b : Block) : List Placed :=
  ⟨start, none, b⟩ :: b.contents.placed start (start + 1)

/-- The blocks of scripts at their places. -/
def Graph.placedFrom (start : Nat) : List Block → List Placed
  | [] => []
  | script :: rest => script.placed start ++ placedFrom (start + script.size) rest

namespace Contents

/-- Every block is placed. -/
theorem nodes_eq_map_placed (parent start : Nat) (contents : Contents) :
    contents.nodes parent start = (contents.placed parent start).map Placed.node := by
  induction contents generalizing parent start with
  | empty => rfl
  | literal _ _ rest ih => exact ih parent start
  | block link face contents rest ihContents ihRest =>
    simp only [nodes, placed, map_cons, map_append, ihContents, ihRest]
    rfl

/-- Blocks are numbered in order. -/
theorem map_id_placed (parent start : Nat) (contents : Contents) :
    (contents.placed parent start).map Placed.id = List.range' start contents.size := by
  induction contents generalizing parent start with
  | empty => rfl
  | literal _ _ rest ih => exact ih parent start
  | block link face contents rest ihContents ihRest =>
    simp only [placed, size, map_cons, map_append, ihContents, ihRest]
    rw [show 1 + contents.size + rest.size = (contents.size + rest.size) + 1 by omega,
      range'_succ, ← range'_append_1, cons_append]

private theorem heads_append_children_perm (parent start : Nat) (contents : Contents) :
    (contents.heads parent start ++ (contents.placed parent start).flatMap Placed.children).Perm
      (contents.placed parent start) := by
  induction contents generalizing parent start with
  | empty => exact .refl _
  | literal _ _ rest ih => exact ih parent start
  | block link face contents rest ihContents ihRest =>
    have hinner := ihContents start (start + 1)
    have hrest := ihRest parent (start + 1 + contents.size)
    simp only [heads, placed, flatMap_cons, flatMap_append, cons_append]
    refine List.Perm.cons _ (List.Perm.trans ?_ (hinner.append hrest))
    rw [← append_assoc (Placed.children _)]
    exact perm_append_comm_assoc _ _ _

/-- Without a link, no next block. -/
theorem nextFrom_eq_none (hnext : .next ∉ contents.links) (start : Nat) :
    contents.nextFrom start = none := by
  induction contents generalizing start with
  | empty => rfl
  | literal _ _ rest ih => exact ih (not_mem_of_not_mem_cons hnext) start
  | block link face contents rest _ ihRest =>
    have hrest := ihRest (not_mem_of_not_mem_cons hnext)
    cases link with
    | next => exact absurd mem_cons_self hnext
    | input name => exact hrest _
    | loose => exact hrest _

end Contents

/-- The block in an input, if there is one. -/
def Input.block? : Input → Option Nat
  | .block id => some id
  | .literal _ => none

/-- The blocks in inputs. -/
def inputBlocks (inputs : Table String Input) : List Nat := inputs.values.filterMap Input.block?

/-- Children are blocks in inputs. -/
theorem Node.children_eq (n : Node) : n.children = inputBlocks n.inputs := by
  unfold children inputBlocks
  congr 1

private theorem inputBlocks_insert {inputs : Table String Input} (hname : name ∉ inputs.keys)
    (input : Input) :
    inputBlocks (inputs.insert name input) = inputBlocks inputs ++ input.block?.toList := by
  rw [Table.insert_of_not_mem hname]
  simp only [inputBlocks, Table.values, map_append, filterMap_append, map_cons, map_nil]
  cases input <;> rfl

private theorem Table.keys_insert_of_not_mem {α : Type} {t : Table String α} (hname : name ∉ t.keys)
    (value : α) : (t.insert name value).keys = t.keys ++ [name] := by
  rw [Table.insert_of_not_mem hname]
  simp only [Table.keys, map_append, map_cons, map_nil]

private theorem Contents.keys_apart_insert {inputs : Table String Input} (input : Input)
    {rest : Contents} (hname : name ∉ inputs.keys) (hlinks : .input name ∉ rest.links)
    (hkeys : ∀ key ∈ inputs.keys, .input key ∉ rest.links) :
    ∀ key ∈ (inputs.insert name input).keys, .input key ∉ rest.links := by
  intro key hkey
  rw [Table.keys_insert_of_not_mem hname] at hkey
  rcases mem_append.mp hkey with hold | hnew
  · exact hkeys key hold
  · rw [mem_singleton.mp hnew]
    exact hlinks

/-- Linked contents refer to the blocks that they hold themselves. The induction carries the inputs
that are filled already. -/
theorem Contents.references_perm (hlinked : contents.Linked) (parent start : Nat)
    (inputs : Table String Input) (hkeys : ∀ key ∈ inputs.keys, .input key ∉ contents.links) :
    ((contents.nextFrom start).toList ++ inputBlocks (contents.inputsFrom start inputs)).Perm
      (inputBlocks inputs ++ (contents.heads parent start).map Placed.id) := by
  induction contents generalizing start inputs with
  | empty => simp [nextFrom, inputsFrom, heads]
  | literal name value rest ih =>
    obtain ⟨hfresh, hrest⟩ := hlinked
    have hname : name ∉ inputs.keys := fun h => hkeys name h mem_cons_self
    have hrestKeys : ∀ key ∈ inputs.keys, .input key ∉ rest.links :=
      fun key h => not_mem_of_not_mem_cons (hkeys key h)
    have hperm := ih hrest start _ (keys_apart_insert (.literal value) hname hfresh hrestKeys)
    rw [inputBlocks_insert hname] at hperm
    simpa only [nextFrom, inputsFrom, heads, Input.block?, Option.toList_none, append_nil]
      using hperm
  | block link face contents rest _ ih =>
    obtain ⟨hloose, hfresh, _, _, hrest⟩ := hlinked
    have hrestKeys : ∀ key ∈ inputs.keys, .input key ∉ rest.links :=
      fun key h => not_mem_of_not_mem_cons (hkeys key h)
    cases link with
    | input name =>
      have hname : name ∉ inputs.keys := fun h => hkeys name h mem_cons_self
      have hperm :=
        ih hrest (start + 1 + contents.size) _
          (keys_apart_insert (.block start) hname hfresh hrestKeys)
      rw [inputBlocks_insert hname] at hperm
      simpa only [nextFrom, inputsFrom, heads, Input.block?, Option.toList_some, map_cons,
        append_assoc, cons_append, nil_append] using hperm
    | next =>
      have hperm := ih hrest (start + 1 + contents.size) inputs hrestKeys
      rw [nextFrom_eq_none hfresh] at hperm
      simp only [nextFrom, nextFrom_eq_none hfresh, Option.none_or, inputsFrom, heads,
        Option.toList_some, map_cons, cons_append, nil_append, Option.toList_none] at hperm ⊢
      exact (hperm.cons start).trans perm_middle.symm
    | loose => exact absurd rfl hloose

private theorem Placed.references_perm (hlinked : p.block.contents.Linked) :
    p.node.references.Perm (p.children.map Placed.id) := by
  have h := Contents.references_perm hlinked p.id (p.id + 1) .empty
    (fun key hkey => absurd hkey not_mem_nil)
  rw [Node.references, Node.children_eq]
  exact h

namespace Contents

/-- What is held comes later. -/
theorem mem_heads (hq : q ∈ contents.heads parent start) :
    start ≤ q.id ∧ ∃ link, q.holder = some (parent, link) := by
  induction contents generalizing start with
  | empty => cases hq
  | literal _ _ rest ih => exact ih hq
  | block link face contents rest _ ihRest =>
    rcases mem_cons.mp hq with rfl | hrest
    · exact ⟨Nat.le_refl _, link, rfl⟩
    · obtain ⟨hle, hholder⟩ := ihRest hrest
      exact ⟨by omega, hholder⟩

private theorem mem_heads_of_nextFrom (parent : Nat) (hnext : contents.nextFrom start = some id) :
    ∃ q ∈ contents.heads parent start, q.id = id ∧ q.holder = some (parent, .next) := by
  induction contents generalizing start with
  | empty => cases hnext
  | literal _ _ rest ih => exact ih hnext
  | block link face contents rest _ ihRest =>
    have hlater (hrest : rest.nextFrom (start + 1 + contents.size) = some id) :
        ∃ q ∈ (Contents.block link face contents rest).heads parent start,
          q.id = id ∧ q.holder = some (parent, .next) := by
      obtain ⟨q, hq, hat⟩ := ihRest hrest
      exact ⟨q, mem_cons_of_mem _ hq, hat⟩
    cases link with
    | next =>
      rcases Option.or_eq_some_iff.mp hnext with hrest | ⟨_, hfirst⟩
      · exact hlater hrest
      · cases hfirst
        exact ⟨_, mem_cons_self, rfl, rfl⟩
    | input _ => exact hlater hnext
    | loose => exact hlater hnext

private theorem holder_isSome_of_mem_placed (hq : q ∈ contents.placed parent start) :
    q.holder.isSome := by
  induction contents generalizing parent start with
  | empty => cases hq
  | literal _ _ rest ih => exact ih hq
  | block link face contents rest ihContents ihRest =>
    rcases mem_append.mp hq with hinner | hrest
    · rcases mem_cons.mp hinner with rfl | hinner
      · rfl
      · exact ihContents hinner
    · exact ihRest hrest

private theorem linked_of_mem_placed (hlinked : contents.Linked)
    (hq : q ∈ contents.placed parent start) :
    q.block.Linked ∧ (q.block.face.shadow → ∀ p, q.holder ≠ some (p, .next)) := by
  induction contents generalizing parent start with
  | empty => cases hq
  | literal _ _ rest ih => exact ih hlinked.2 hq
  | block link face contents rest ihContents ihRest =>
    obtain ⟨_, _, hshadow, hcont, hrestLinked⟩ := hlinked
    rcases mem_append.mp hq with hinner | hrest
    · rcases mem_cons.mp hinner with rfl | hinner
      · refine ⟨⟨hcont, fun h => (hshadow h).2⟩, ?_⟩
        intro h p heq
        cases heq
        exact (hshadow h).1 rfl
      · exact ihContents hcont hinner
    · exact ihRest hrestLinked hrest

end Contents

namespace Graph

/-- Whether a block refers to a block. -/
def RefersTo (g : Graph) (id child : Nat) : Prop :=
  ∃ node, g.nodes[id]? = some node ∧ child ∈ node.references

/-- The parent of a block. -/
def parent? (g : Graph) (id : Nat) : Option Nat := g.nodes[id]?.bind Node.parent

/-- Whether the parents from one block on lead to another. -/
def Leads (g : Graph) : Nat → Nat → Prop :=
  Relation.ReflTransGen fun id parent => g.parent? id = some parent

/-- A graph is a forest if the parent of a block is the block that refers to it. -/
structure IsForest (g : Graph) : Prop where
  /-- A block that begins a script is referred to by none, and every other block exactly once. -/
  count_references : ∀ id node, g.nodes[id]? = some node →
    (g.nodes.flatMap Node.references).count id = if node.isTop then 0 else 1
  /-- What a block refers to is in the graph. -/
  lt_size_of_refersTo : ∀ id child, g.RefersTo id child → child < g.size
  /-- The parent of a block is what refers to it. -/
  parent?_eq_some_iff : ∀ id parent, g.parent? id = some parent ↔ g.RefersTo parent id
  /-- The parents of a block lead to exactly one script. -/
  exists_unique_top : ∀ id < g.size, ∃! top, top ∈ g.tops ∧ g.Leads id top
  /-- Nothing comes after a shadow. -/
  next_of_shadow : ∀ node ∈ g.nodes, node.face.shadow = true → node.next = none
  /-- A shadow comes after nothing. -/
  shadow_of_next : ∀ node ∈ g.nodes, ∀ id, node.next = some id →
    ∃ after, g.nodes[id]? = some after ∧ after.face.shadow = false

/-- Blocks of scripts are placed. -/
theorem layoutFrom_eq_map_placed (start : Nat) (scripts : List Block) :
    layoutFrom start scripts = (placedFrom start scripts).map Placed.node := by
  induction scripts generalizing start with
  | nil => rfl
  | cons script rest ih =>
    rw [layoutFrom, placedFrom, map_append, ih]
    congr 1
    rw [Block.nodes, Block.placed, map_cons, ← Contents.nodes_eq_map_placed]
    rfl

private theorem map_id_placedFrom (start : Nat) (scripts : List Block) :
    (placedFrom start scripts).map Placed.id = List.range' start
      (placedFrom start scripts).length := by
  induction scripts generalizing start with
  | nil => rfl
  | cons script rest ih =>
    have hids : (script.placed start).map Placed.id = List.range' start script.size := by
      rw [Block.placed, map_cons, Contents.map_id_placed, ← range'_succ, Block.size, Nat.add_comm 1]
    have hlen : (script.placed start).length = script.size := by
      rw [← length_map Placed.id, hids, length_range']
    rw [placedFrom, map_append, ih, hids, length_append, hlen, range'_append_1]

/-- The blocks that blocks of scripts hold are all the blocks but the first of each script. -/
theorem flatMap_children_perm (start : Nat) (scripts : List Block) :
    ((placedFrom start scripts).flatMap Placed.children).Perm
      ((placedFrom start scripts).filter fun p => p.holder.isSome) := by
  induction scripts generalizing start with
  | nil => exact .refl _
  | cons script rest ih =>
    rw [placedFrom, flatMap_append, filter_append]
    refine List.Perm.append ?_ (ih _)
    rw [Block.placed, flatMap_cons, filter_cons_of_neg (by simp),
      filter_eq_self.mpr fun q hq => Contents.holder_isSome_of_mem_placed hq]
    exact Contents.heads_append_children_perm _ _ _

private theorem forall₂_placed_filter {scripts : List Block} {all : List Placed}
    (hall : ∀ p ∈ placedFrom start scripts, p ∈ all) :
    List.Forall₂ (fun b top => ⟨top, none, b⟩ ∈ all) scripts
      (((placedFrom start scripts).filter fun p => p.holder.isNone).map Placed.id) := by
  induction scripts generalizing start with
  | nil => exact .nil
  | cons script rest ih =>
    have hinner :
        (script.contents.placed start (start + 1)).filter (fun p => p.holder.isNone) = [] :=
      filter_eq_nil_iff.mpr fun q hq => by
        simp [Option.isSome_iff_ne_none.mp (Contents.holder_isSome_of_mem_placed hq)]
    rw [placedFrom, filter_append, Block.placed, filter_cons_of_pos rfl, hinner]
    refine .cons ?_ (ih fun p hp => hall p (mem_append_right _ hp))
    exact hall _ (mem_append_left _ mem_cons_self)

section Scripts

variable {scripts : List Block}

/-- Blocks of graphs are placed. -/
theorem nodes_ofScripts : (ofScripts scripts).nodes = (placedFrom 0 scripts).map Placed.node :=
  layoutFrom_eq_map_placed 0 scripts

/-- No number is given twice. -/
theorem nodup_ids : ((placedFrom 0 scripts).map Placed.id).Nodup := by
  rw [map_id_placedFrom]
  exact nodup_range'

/-- A number tells the block. -/
theorem id_of_getElem? (hp : (placedFrom 0 scripts)[i]? = some p) : p.id = i := by
  have hid : ((placedFrom 0 scripts).map Placed.id)[i]? = some p.id := by
    rw [getElem?_map, hp]
    rfl
  rw [map_id_placedFrom] at hid
  obtain ⟨_, heq⟩ := List.getElem?_eq_some_iff.mp hid
  simpa using heq.symm

/-- The block with a number is the one placed there. -/
theorem getElem?_ofScripts_iff {node : Node} : (ofScripts scripts).nodes[i]? = some node ↔
      ∃ p ∈ placedFrom 0 scripts, p.id = i ∧ p.node = node := by
  rw [nodes_ofScripts, getElem?_map, Option.map_eq_some_iff]
  constructor
  · rintro ⟨p, hp, rfl⟩
    exact ⟨p, mem_of_getElem? hp, id_of_getElem? hp, rfl⟩
  · rintro ⟨p, hp, rfl, rfl⟩
    obtain ⟨j, hj⟩ := getElem?_of_mem hp
    rw [id_of_getElem? hj]
    exact ⟨p, hj, rfl⟩

/-- The blocks of linked scripts are linked, and no shadow comes after a block. -/
theorem linked_of_mem_placedFrom (hlinked : ∀ b ∈ scripts, b.Linked)
    (hp : p ∈ placedFrom start scripts) :
    p.block.Linked ∧ (p.block.face.shadow → ∀ id, p.holder ≠ some (id, .next)) := by
  induction scripts generalizing start with
  | nil => cases hp
  | cons script rest ih =>
    rcases mem_append.mp hp with hscript | hrest
    · rcases mem_cons.mp hscript with rfl | hinner
      · exact ⟨hlinked _ mem_cons_self, fun _ _ h => nomatch h⟩
      · exact Contents.linked_of_mem_placed (hlinked _ mem_cons_self).1 hinner
    · exact ih (fun b hb => hlinked b (mem_cons_of_mem _ hb)) hrest

/-- What is held is placed. -/
theorem mem_of_mem_children (hp : p ∈ placedFrom 0 scripts) (hq : q ∈ p.children) :
    q ∈ placedFrom 0 scripts :=
  mem_of_mem_filter ((flatMap_children_perm 0 scripts).subset (mem_flatMap.mpr ⟨p, hp, hq⟩))

private theorem exists_holder (hq : q ∈ placedFrom 0 scripts) {link : Link}
    (hholder : q.holder = some (id, link)) :
    ∃ p ∈ placedFrom 0 scripts, p.id = id ∧ q ∈ p.children := by
  have hmem : q ∈ (placedFrom 0 scripts).filter fun p => p.holder.isSome :=
    mem_filter.mpr ⟨hq, by rw [hholder]; rfl⟩
  obtain ⟨p, hp, hchild⟩ := mem_flatMap.mp ((flatMap_children_perm 0 scripts).symm.subset hmem)
  obtain ⟨_, link', hlink⟩ := Contents.mem_heads hchild
  rw [hlink] at hholder
  cases hholder
  exact ⟨p, hp, rfl, hchild⟩

/-- The parent is the holder. -/
theorem parent?_ofScripts_iff : (ofScripts scripts).parent? id = some parent ↔
      ∃ q ∈ placedFrom 0 scripts, q.id = id ∧ ∃ link, q.holder = some (parent, link) := by
  unfold parent?
  rw [Option.bind_eq_some_iff]
  constructor
  · rintro ⟨node, hnode, hpar⟩
    obtain ⟨q, hq, hid, rfl⟩ := getElem?_ofScripts_iff.mp hnode
    obtain ⟨⟨_, link⟩, hholder, rfl⟩ := Option.map_eq_some_iff.mp hpar
    exact ⟨q, hq, hid, link, hholder⟩
  · rintro ⟨q, hq, hid, link, hholder⟩
    refine ⟨q.node, getElem?_ofScripts_iff.mpr ⟨q, hq, hid, rfl⟩, ?_⟩
    exact Option.map_eq_some_iff.mpr ⟨_, hholder, rfl⟩

private theorem refersTo_ofScripts_iff (hlinked : ∀ b ∈ scripts, b.Linked) {child : Nat} :
    (ofScripts scripts).RefersTo id child ↔
      ∃ p ∈ placedFrom 0 scripts, p.id = id ∧ ∃ q ∈ p.children, q.id = child := by
  constructor
  · rintro ⟨node, hnode, hchild⟩
    obtain ⟨p, hp, hid, rfl⟩ := getElem?_ofScripts_iff.mp hnode
    have hmem := (Placed.references_perm (linked_of_mem_placedFrom hlinked hp).1.1).subset hchild
    exact ⟨p, hp, hid, mem_map.mp hmem⟩
  · rintro ⟨p, hp, hid, hchild⟩
    refine ⟨p.node, getElem?_ofScripts_iff.mpr ⟨p, hp, hid, rfl⟩, ?_⟩
    have hperm := Placed.references_perm (linked_of_mem_placedFrom hlinked hp).1.1
    exact hperm.symm.subset (mem_map.mpr hchild)

private theorem parent?_iff_refersTo (hlinked : ∀ b ∈ scripts, b.Linked) :
    (ofScripts scripts).parent? id = some parent ↔ (ofScripts scripts).RefersTo parent id := by
  rw [parent?_ofScripts_iff, refersTo_ofScripts_iff hlinked]
  constructor
  · rintro ⟨q, hq, hid, link, hholder⟩
    obtain ⟨p, hp, hpar, hchild⟩ := exists_holder hq hholder
    exact ⟨p, hp, hpar, q, hchild, hid⟩
  · rintro ⟨p, hp, rfl, q, hchild, hid⟩
    obtain ⟨_, hholder⟩ := Contents.mem_heads hchild
    exact ⟨q, mem_of_mem_children hp hchild, hid, hholder⟩

private theorem lt_of_parent?_ofScripts (hpar : (ofScripts scripts).parent? id = some parent) :
    parent < id := by
  obtain ⟨q, hq, rfl, link, hholder⟩ := parent?_ofScripts_iff.mp hpar
  obtain ⟨p, hp, rfl, hchild⟩ := exists_holder hq hholder
  have hle := (Contents.mem_heads hchild).1
  omega

/-- All references together name every block with a holder once. -/
theorem flatMap_references_perm (hlinked : ∀ b ∈ scripts, b.Linked) :
    ((ofScripts scripts).nodes.flatMap Node.references).Perm
      (((placedFrom 0 scripts).filter fun p => p.holder.isSome).map Placed.id) := by
  have hnodes : ((placedFrom 0 scripts).flatMap fun p => p.node.references).Perm
      ((placedFrom 0 scripts).flatMap fun p => p.children.map Placed.id) :=
    List.Perm.flatMap_left _ fun p hp => Placed.references_perm
      (linked_of_mem_placedFrom hlinked hp).1.1
  rw [nodes_ofScripts, flatMap_map]
  refine hnodes.trans ?_
  rw [← map_flatMap]
  exact (flatMap_children_perm 0 scripts).map _

/-- Scripts have no holder. -/
theorem isTop_node (p : Placed) : p.node.isTop = p.holder.isNone := by
  cases hholder : p.holder <;> simp [Placed.node, Contents.node, Node.isTop, hholder]

private theorem count_references_ofScripts (hlinked : ∀ b ∈ scripts, b.Linked) {node : Node}
    (hnode : (ofScripts scripts).nodes[id]? = some node) :
    ((ofScripts scripts).nodes.flatMap Node.references).count id = if node.isTop then 0 else 1 := by
  obtain ⟨p, hp, rfl, rfl⟩ := getElem?_ofScripts_iff.mp hnode
  rw [(flatMap_references_perm hlinked).count_eq]
  have hnodup : (((placedFrom 0 scripts).filter fun p => p.holder.isSome).map Placed.id).Nodup :=
    nodup_ids.sublist (filter_sublist.map _)
  rw [hnodup.count, isTop_node]
  cases hholder : p.holder with
  | none =>
    rw [if_neg, Option.isNone_none, if_pos rfl]
    intro hmem
    obtain ⟨q, hq, hid⟩ := mem_map.mp hmem
    obtain ⟨hq, hsome⟩ := mem_filter.mp hq
    have heq : q = p := inj_on_of_nodup_map nodup_ids hq hp hid
    rw [heq, hholder] at hsome
    cases hsome
  | some held =>
    rw [if_pos, Option.isNone_some, if_neg Bool.false_ne_true]
    exact mem_map.mpr ⟨p, mem_filter.mpr ⟨hp, by rw [hholder]; rfl⟩, rfl⟩

private theorem entries_ofScripts :
    (ofScripts scripts).entries = (placedFrom 0 scripts).map fun p => (p.id, p.node) := by
  apply ext_getElem?
  intro i
  rw [entries, nodes_ofScripts, getElem?_map, getElem?_map, getElem?_zipIdx, getElem?_map]
  cases hp : (placedFrom 0 scripts)[i]? with
  | none => rfl
  | some p => simp [id_of_getElem? hp]

/-- The tops are the scripts. -/
theorem tops_ofScripts : (ofScripts scripts).tops =
      ((placedFrom 0 scripts).filter fun p => p.holder.isNone).map Placed.id := by
  have hfilter : ((fun e : Nat × Node => e.2.isTop) ∘ fun p : Placed => (p.id, p.node)) =
      fun p => p.holder.isNone := funext isTop_node
  rw [tops, entries_ofScripts, filter_map, map_map, hfilter]
  rfl

private theorem size_ofScripts : (ofScripts scripts).size = (placedFrom 0 scripts).length := by
  rw [size, nodes_ofScripts, length_map]

private theorem exists_placed (hid : id < (ofScripts scripts).size) :
    ∃ p ∈ placedFrom 0 scripts, p.id = id := by
  rw [size_ofScripts] at hid
  exact ⟨_, getElem_mem hid, id_of_getElem? (getElem?_eq_getElem hid)⟩

private theorem mem_tops_iff {top : Nat} : top ∈ (ofScripts scripts).tops ↔
      top < (ofScripts scripts).size ∧ (ofScripts scripts).parent? top = none := by
  rw [tops_ofScripts, mem_map]
  constructor
  · rintro ⟨p, hp, rfl⟩
    obtain ⟨hp, hnone⟩ := mem_filter.mp hp
    have hnode := getElem?_ofScripts_iff.mpr ⟨p, hp, rfl, rfl⟩
    refine ⟨(List.getElem?_eq_some_iff.mp hnode).1, ?_⟩
    rw [parent?, hnode, Option.bind_some]
    simpa only [← isTop_node, Node.isTop, Option.isNone_iff_eq_none] using hnone
  · rintro ⟨hlt, hpar⟩
    obtain ⟨p, hp, rfl⟩ := exists_placed hlt
    refine ⟨p, mem_filter.mpr ⟨hp, ?_⟩, rfl⟩
    rw [parent?, getElem?_ofScripts_iff.mpr ⟨p, hp, rfl, rfl⟩, Option.bind_some] at hpar
    rw [← isTop_node, Node.isTop, hpar, Option.isNone_none]

private theorem exists_top (hid : id < (ofScripts scripts).size) :
    ∃ top, top ∈ (ofScripts scripts).tops ∧ (ofScripts scripts).Leads id top := by
  induction id using Nat.strongRecOn with
  | ind id ih =>
    cases hpar : (ofScripts scripts).parent? id with
    | none => exact ⟨id, mem_tops_iff.mpr ⟨hid, hpar⟩, .refl⟩
    | some parent =>
      have hlt := lt_of_parent?_ofScripts hpar
      obtain ⟨top, htop, hleads⟩ := ih parent hlt (by omega)
      exact ⟨top, htop, .head hpar hleads⟩

private theorem top_unique {first second : Nat} (hfirst : first ∈ (ofScripts scripts).tops)
    (hleadsFirst : (ofScripts scripts).Leads id first) (hsnd : second ∈ (ofScripts scripts).tops)
    (hleadsSecond : (ofScripts scripts).Leads id second) : first = second := by
  induction hleadsFirst using Relation.ReflTransGen.head_induction_on with
  | refl =>
    rcases hleadsSecond.cases_head with heq | ⟨next, hpar, _⟩
    · exact heq
    · rw [(mem_tops_iff.mp hfirst).2] at hpar
      cases hpar
  | head hpar _ ih =>
    rcases hleadsSecond.cases_head with heq | ⟨next, hnext, hrest⟩
    · rw [heq, (mem_tops_iff.mp hsnd).2] at hpar
      cases hpar
    · rw [hpar] at hnext
      cases hnext
      exact ih hrest

/-- Linked scripts are a forest. -/
theorem isForest_ofScripts (hlinked : ∀ b ∈ scripts, b.Linked) : (ofScripts scripts).IsForest where
  count_references _ _ hnode := count_references_ofScripts hlinked hnode
  lt_size_of_refersTo id child hrefers := by
    obtain ⟨node, hnode, _⟩ :=
      Option.bind_eq_some_iff.mp ((parent?_iff_refersTo hlinked).mpr hrefers)
    exact (List.getElem?_eq_some_iff.mp hnode).1
  parent?_eq_some_iff _ _ := parent?_iff_refersTo hlinked
  exists_unique_top id hid := by
    obtain ⟨top, htop, hleads⟩ := exists_top hid
    refine ⟨top, ⟨htop, hleads⟩, ?_⟩
    rintro other ⟨hother, hotherLeads⟩
    exact top_unique hother hotherLeads htop hleads
  next_of_shadow node hnode hshadow := by
    rw [nodes_ofScripts] at hnode
    obtain ⟨p, hp, rfl⟩ := mem_map.mp hnode
    exact Contents.nextFrom_eq_none ((linked_of_mem_placedFrom hlinked hp).1.2 hshadow) _
  shadow_of_next node hnode id hnext := by
    rw [nodes_ofScripts] at hnode
    obtain ⟨p, hp, rfl⟩ := mem_map.mp hnode
    obtain ⟨q, hchild, rfl, hholder⟩ := Contents.mem_heads_of_nextFrom p.id hnext
    have hq := mem_of_mem_children hp hchild
    refine ⟨q.node, getElem?_ofScripts_iff.mpr ⟨q, hq, rfl, rfl⟩, ?_⟩
    cases hshadow : q.block.face.shadow with
    | false => exact hshadow
    | true => exact absurd hholder ((linked_of_mem_placedFrom hlinked hq).2 hshadow p.id)

/-- Scripts begin, in order, with the blocks that have no parent. -/
theorem forall₂_placed_tops :
    List.Forall₂ (fun b top => ⟨top, none, b⟩ ∈ placedFrom 0 scripts) scripts
      (ofScripts scripts).tops := by
  rw [tops_ofScripts]
  exact forall₂_placed_filter fun p hp => hp

end Scripts

end Graph

end BlockScript
