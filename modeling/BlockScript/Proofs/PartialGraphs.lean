import BlockScript.Proofs.Assembled

/-!
# Graphs with incomplete blocks

Lowering leaves a graph whatever faults it meets. Blocks that were given up stay in it, and nothing
refers to them. The graph is sound all the same: its blocks are numbered in order, and what a block
refers to comes later, has it as its parent, and is referred to by nothing else. None of this needs
the links of a block to be different: where an input is filled twice, the first content is no longer
referred to.
-/

namespace BlockScript

variable {c : LowerContext}

open List

private theorem blockName_injective {id id' : Nat} (h : blockName id = blockName id') :
    id = id' := by
  unfold blockName at h
  rw [String.append_right_inj, Nat.toString_eq_ofList_toDigits, Nat.toString_eq_ofList_toDigits]
    at h
  have hdigits := congrArg (Nat.ofDigitChars 10 · 0) (String.ofList_injective h)
  simpa only [Nat.ofDigitChars_ten_toDigits] using hdigits

private theorem count_inputBlocks_cons (entry : String × Input) (rest : List (String × Input))
    (id : Nat) :
    (inputBlocks ⟨entry :: rest⟩).count id = entry.2.block?.toList.count id +
    (inputBlocks ⟨rest⟩).count id := by
  unfold inputBlocks Table.values
  rw [map_cons, filterMap_cons]
  cases entry.2.block? <;> simp [count_cons, Nat.add_comm]

private theorem count_inputBlocks_insert_le (inputs : Table String Input) (name : String)
    (input : Input) (id : Nat) :
    (inputBlocks (inputs.insert name input)).count id ≤
      (inputBlocks inputs).count id + input.block?.toList.count id := by
  obtain ⟨entries⟩ := inputs
  induction entries with
  | nil =>
    have hinsert : (Table.mk []).insert name input = ⟨[(name, input)]⟩ := rfl
    rw [hinsert, count_inputBlocks_cons]
    exact Nat.le_of_eq (Nat.add_comm _ _)
  | cons entry rest ih =>
    by_cases hname : entry.1 = name
    · have hinsert : (Table.mk (entry :: rest)).insert name input = ⟨(name, input) :: rest⟩ :=
        congrArg Table.mk (if_pos hname)
      rw [hinsert, count_inputBlocks_cons, count_inputBlocks_cons]
      dsimp only
      omega
    · have hinsert : (Table.mk (entry :: rest)).insert name input =
          ⟨entry :: ((Table.mk rest).insert name input).entries⟩ := congrArg Table.mk (if_neg hname)
      rw [hinsert, count_inputBlocks_cons, count_inputBlocks_cons]
      change _ + (inputBlocks ((Table.mk rest).insert name input)).count id ≤ _
      omega

/-- Linked or not, contents refer to blocks that they hold themselves, each at most once. -/
theorem Contents.count_references_le (contents : Contents) (parent start : Nat)
    (inputs : Table String Input) (id : Nat) :
    ((contents.nextFrom start).toList ++ inputBlocks (contents.inputsFrom start inputs)).count id ≤
      (inputBlocks inputs).count id + ((contents.heads parent start).map Placed.id).count id := by
  induction contents generalizing start inputs with
  | empty => simp [nextFrom, inputsFrom, heads]
  | literal name value rest ih =>
    have hrest := ih start (inputs.insert name (.literal value))
    have hinsert := count_inputBlocks_insert_le inputs name (.literal value) id
    simp only [Input.block?, Option.toList_none, count_nil] at hinsert
    simp only [nextFrom, inputsFrom, heads]
    omega
  | block link face contents rest _ ih =>
    cases link with
    | input name =>
      have hrest := ih (start + 1 + contents.size) (inputs.insert name (.block start))
      have hinsert := count_inputBlocks_insert_le inputs name (.block start) id
      simp only [Input.block?, Option.toList_some, count_singleton] at hinsert
      simp only [nextFrom, inputsFrom, heads, map_cons, count_cons]
      omega
    | next =>
      -- If there is a later block under the same link, this one is not referred to.
      have hrest := ih (start + 1 + contents.size) inputs
      rw [count_append] at hrest ⊢
      simp only [nextFrom, inputsFrom, heads, map_cons, count_cons]
      cases hnext : rest.nextFrom (start + 1 + contents.size) with
      | none => simp only [Option.none_or, Option.toList_some, count_singleton]; omega
      | some later => rw [Option.some_or, ← hnext]; omega
    | loose =>
      have hrest := ih (start + 1 + contents.size) inputs
      simp only [nextFrom, inputsFrom, heads, map_cons, count_cons]
      omega

private theorem Placed.count_references_le (p : Placed) (id : Nat) :
    p.node.references.count id ≤ (p.children.map Placed.id).count id := by
  rw [Node.references, Node.children_eq]
  have h := p.block.contents.count_references_le p.id (p.id + 1) .empty id
  rwa [show inputBlocks .empty = [] from rfl, count_nil, Nat.zero_add] at h

private theorem Placed.exists_child {p : Placed} {id : Nat} (h : id ∈ p.node.references) :
    ∃ q ∈ p.children, q.id = id := by
  have hpos := Nat.lt_of_lt_of_le (count_pos_iff.mpr h) (p.count_references_le id)
  exact mem_map.mp (count_pos_iff.mp hpos)

namespace Graph

/-- What is sound in a graph even if some of its blocks are not complete. -/
structure IsSound (g : Graph) : Prop where
  /-- The blocks are named by their numbers, in order. -/
  names : g.entries.map (fun entry => blockName entry.1) = (List.range g.size).map blockName
  /-- No two blocks have the same name. -/
  nodup_names : (g.entries.map fun entry => blockName entry.1).Nodup
  /-- What a block refers to is a later block of the graph that begins no script. Its parent is the
  block that refers to it. -/
  refersTo : ∀ id child, g.RefersTo id child →
    id < child ∧ ∃ node, g.nodes[child]? = some node ∧ node.isTop = false ∧ node.parent = some id
  /-- No block is referred to twice. -/
  nodup_references : (g.nodes.flatMap Node.references).Nodup
  /-- What begins a script has no parent. -/
  parent?_of_mem_tops : ∀ top ∈ g.tops, g.parent? top = none
  /-- Nothing comes after a shadow. -/
  next_of_shadow : ∀ node ∈ g.nodes, node.face.shadow = true → node.next = none

private theorem map_fst_entries (g : Graph) : g.entries.map Prod.fst = List.range g.size := by
  rw [entries, map_map, size, range_eq_range']
  exact zipIdx_map_snd 0 g.nodes

private theorem names_entries (g : Graph) :
    g.entries.map (fun entry => blockName entry.1) = (List.range g.size).map blockName := by
  rw [← g.map_fst_entries, map_map]
  rfl

variable {scripts : List Block}

private theorem refersTo_ofScripts {id child : Nat} (h : (ofScripts scripts).RefersTo id child) :
    id < child ∧ ∃ node, (ofScripts scripts).nodes[child]? = some node ∧ node.isTop = false ∧
      node.parent = some id := by
  obtain ⟨node, hnode, hchild⟩ := h
  obtain ⟨p, hp, rfl, rfl⟩ := getElem?_ofScripts_iff.mp hnode
  obtain ⟨q, hq, rfl⟩ := p.exists_child hchild
  obtain ⟨hle, link, hholder⟩ := Contents.mem_heads hq
  have hpar : q.node.parent = some p.id := by
    simp [Placed.node, Contents.node, hholder]
  refine ⟨by omega, q.node, getElem?_ofScripts_iff.mpr ⟨q, mem_of_mem_children hp hq, rfl, rfl⟩,
    ?_, hpar⟩
  rw [isTop_node, hholder, Option.isNone_some]

private theorem nodup_references_ofScripts :
    ((ofScripts scripts).nodes.flatMap Node.references).Nodup := by
  have hheld : (((placedFrom 0 scripts).filter fun p => p.holder.isSome).map Placed.id).Nodup :=
    nodup_ids.sublist (filter_sublist.map _)
  have hchildren : ((placedFrom 0 scripts).flatMap fun p => p.children.map Placed.id).Nodup := by
    rw [← map_flatMap]
    exact ((flatMap_children_perm 0 scripts).map _).nodup_iff.mpr hheld
  have hle (all : List Placed) (id : Nat) : (all.flatMap fun p => p.node.references).count id ≤
      (all.flatMap fun p => p.children.map Placed.id).count id := by
    induction all with
    | nil => exact le_rfl
    | cons p rest ih =>
      have hp := p.count_references_le id
      simp only [flatMap_cons, count_append]
      omega
  rw [nodes_ofScripts, flatMap_map, nodup_iff_count_le_one]
  exact fun id => Nat.le_trans (hle _ id) (nodup_iff_count_le_one.mp hchildren id)

private theorem parent?_of_mem_tops {g : Graph} {top : Nat} (h : top ∈ g.tops) :
    g.parent? top = none := by
  obtain ⟨⟨id, node⟩, hentry, rfl⟩ := mem_map.mp h
  obtain ⟨hentry, htop⟩ := mem_filter.mp hentry
  obtain ⟨⟨node', id'⟩, hmem, heq⟩ := mem_map.mp hentry
  cases heq
  have hnode : g.nodes[id]? = some node := by
    rw [← mk_mem_zipIdx_iff_getElem?]
    exact hmem
  rw [parent?, hnode, Option.bind_some]
  exact Option.isNone_iff_eq_none.mp htop

/-- The graph of any scripts is sound, as long as nothing comes after a shadow. -/
theorem isSound_ofScripts (hshadow : ∀ node ∈ (ofScripts scripts).nodes, node.face.shadow →
    node.next = none) : (ofScripts scripts).IsSound where
  names := names_entries _
  nodup_names := by
    rw [names_entries]
    exact nodup_range.map_on fun _ _ _ _ h => blockName_injective h
  refersTo _ _ h := refersTo_ofScripts h
  nodup_references := nodup_references_ofScripts
  parent?_of_mem_tops _ h := parent?_of_mem_tops h
  next_of_shadow := hshadow

end Graph

private theorem LowerContext.ScriptWay.link?_ne_next {S : c.Source} {opcode : String}
    {steps : List Step} (h : c.ScriptWay S opcode true steps) :
    ∀ step ∈ steps, step.link? ≠ some .next := by
  cases h with
  | prototype hsteps => exact hsteps
  | inner h => cases h <;> exact forall_mem_singleton.mpr nofun

private theorem Block.Stands.next_not_mem {S : c.Source} {b : Block}
    (h : b.Stands (c.ScriptWay S) false) (hshadow : b.face.shadow) : .next ∉ b.contents.links := by
  obtain ⟨shadow, core, ⟨opcode, steps, fault, hway, hcore, _⟩, hblock⟩ := h
  have hface : core.face.shadow = shadow := by
    have hface := face_assembleFrom { opcode, shadow } steps
    rw [hcore] at hface
    exact (congrArg Face.shadow hface).trans (foldl_onFace _ _).2
  rcases hblock with rfl | ⟨rfl, link, next, rfl, _⟩
  · rw [hface] at hshadow
    subst hshadow
    intro hnext
    rw [← show (assembleFrom { opcode, shadow := true } steps).1 = b from congrArg Prod.fst hcore]
      at hnext
    rcases mem_append.mp ((links_assembleFrom _ _).subset hnext) with hlink | hloose
    · obtain ⟨step, hstep, hlink⟩ := mem_filterMap.mp hlink
      exact hway.link?_ne_next step hstep hlink
    · obtain ⟨_, _, ⟨⟩⟩ := mem_map.mp hloose
  · cases hface.symm.trans hshadow

/-- The graph that lowering leaves of a program is sound, for every program with any definitions,
types and catalog, whatever errors lowering reports. Its scripts are those of the items of which
lowering began a block, in their order. -/
theorem lower_isSound (catalog : Catalog) (types : TypeTable) (defs : Definitions)
    (program : Program) :
    (program.lower catalog types defs).graph.IsSound ∧
      List.Forall₂ (fun (b : Block) top => ∃ node,
          (program.lower catalog types defs).graph.nodes[top]? = some node ∧ node.face = b.face ∧
            node.parent = none)
        (program.statements.filterMap fun item =>
          (LowerContext.lowerItem { defs, types, catalog } item).block)
        (program.lower catalog types defs).graph.tops := by
  refine ⟨Graph.isSound_ofScripts fun node hnode hshadow => ?_, ?_⟩
  · obtain ⟨item, _, p, rfl, hstands⟩ :=
      Program.exists_stands (fun item _ => LowerContext.Source.item_any item) hnode
    exact Contents.nextFrom_eq_none (hstands.next_not_mem hshadow) _
  · have hblocks : (program.statements.filterMap fun item =>
        (LowerContext.lowerItem { defs, types, catalog } item).block) =
        (program.statements.map (LowerContext.lowerItem { defs, types, catalog })).filterMap
            (·.block) := by
      rw [List.filterMap_map]
      rfl
    rw [hblocks]
    refine Graph.forall₂_placed_tops.imp fun b top hplaced => ?_
    exact ⟨_, Graph.getElem?_ofScripts_iff.mpr ⟨_, hplaced, rfl, rfl⟩, rfl, rfl⟩

end BlockScript
