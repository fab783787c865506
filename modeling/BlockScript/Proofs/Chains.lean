import BlockScript.Proofs.Stages

/-!
# Chains of bodies

The statements of a body that are not declarations become blocks that follow one another, up to the
first statement that control never passes. In the graph of a program, the block before a body refers
to the first of these blocks and each of them to the next one, also in the bodies of branches and
loops. What comes after a statement that control never passes leaves no trace in the graph.
-/

namespace BlockScript

open List

/-! ### What links hold

A block holds at most one thing under each of its links. In the graph, an input or the place after a
block refers to just that. What the steps of an assembly attach is what the complete block holds.
-/

section

variable {link : Link} {contents : Contents} {face : Face} {steps : List Step} {b : Block}

/-- What a block holds under a link. -/
inductive Held where
  | literal (value : Value)
  | block (b : Block)

/-- What a content puts under a link. -/
def Content.held? : Content → Option Held
  | .literal value => some (.literal value)
  | .assembly a => a.block.map .block

/-- The first thing that contents hold under a link. -/
def Contents.held? (link : Link) : Contents → Option Held
  | .empty => none
  | .literal input value rest =>
    if link = .input input then some (.literal value) else rest.held? link
  | .block other face contents rest =>
    if link = other then some (.block ⟨face, contents⟩) else rest.held? link

/-- What a block refers to by a link. -/
def Node.refer? (n : Node) : Link → Option Input
  | .input name => n.inputs.get? name
  | .next => n.next.map .block
  | .loose => none

/-- Whether a reference is to what is held, where held blocks are among those that are placed. -/
def Held.At (placed : List Placed) : Option Held → Option Input → Prop
  | none, input => input = none
  | some (.literal value), input => input = some (.literal value)
  | some (.block b), input => ∃ q ∈ placed, q.block = b ∧ input = some (.block q.id)

/-- More may be placed. -/
theorem Held.At.mono {placed more : List Placed} (hsub : placed ⊆ more) {input : Option Input} :
    ∀ {held : Option Held}, Held.At placed held input → Held.At more held input
  | none, h | some (.literal _), h => h
  | some (.block _), ⟨q, hq, h⟩ => ⟨q, hsub hq, h⟩

namespace Contents

private theorem held?_eq_none (hlink : link ∉ contents.links) : contents.held? link = none := by
  induction contents with
  | empty => rfl
  | literal input value rest ih | block other face contents rest _ ih =>
    rw [links, mem_cons, not_or] at hlink
    rw [held?, if_neg hlink.1, ih hlink.2]

private theorem at_heads_cons {parent start : Nat} {rest : Contents} {held : Option Held}
    {input : Option Input}
    (h : Held.At (rest.heads parent (start + 1 + contents.size)) held input) :
    Held.At ((Contents.block link face contents rest).heads parent start) held input :=
  h.mono (subset_cons_self _ _)

private theorem at_inputsFrom (hlinked : contents.Linked) (parent start : Nat) {name : String}
    {inputs : Table String Input} (hnone : inputs.get? name = none) :
    Held.At (contents.heads parent start) (contents.held? (.input name))
      ((contents.inputsFrom start inputs).get? name) := by
  induction contents generalizing start inputs with
  | empty => exact hnone
  | literal input value rest ih =>
    obtain ⟨hfresh, hrest⟩ := hlinked
    rw [held?, inputsFrom]
    by_cases hname : name = input
    · subst hname
      rw [if_pos rfl, get?_inputsFrom_of_not_mem hfresh, Table.get?_insert, if_pos rfl]
      exact rfl
    · rw [if_neg fun h => hname (Link.input.inj h)]
      exact ih hrest start (by rw [Table.get?_insert, if_neg (Ne.symm hname), hnone])
  | block other face contents rest _ ih =>
    obtain ⟨_, hfresh, _, _, hrest⟩ := hlinked
    by_cases hother : Link.input name = other
    · subst hother
      rw [held?, if_pos rfl, inputsFrom, get?_inputsFrom_of_not_mem hfresh, Table.get?_insert,
        if_pos rfl]
      exact ⟨_, mem_cons_self, rfl, rfl⟩
    · rw [held?, if_neg hother]
      cases other with
      | input input =>
        have hname : input ≠ name := fun h => hother (congrArg Link.input h.symm)
        exact at_heads_cons (ih hrest _ (by rw [Table.get?_insert, if_neg hname, hnone]))
      | next => exact at_heads_cons (ih hrest _ hnone)
      | loose => exact at_heads_cons (ih hrest _ hnone)

private theorem at_nextFrom (hlinked : contents.Linked) (parent start : Nat) :
    Held.At (contents.heads parent start) (contents.held? .next)
    ((contents.nextFrom start).map .block) := by
  induction contents generalizing start with
  | empty => rfl
  | literal input value rest ih => exact ih hlinked.2 start
  | block other face contents rest _ ih =>
    obtain ⟨_, hfresh, _, _, hrest⟩ := hlinked
    cases other with
    | next =>
      rw [nextFrom, nextFrom_eq_none hfresh]
      exact ⟨_, mem_cons_self, rfl, rfl⟩
    | input input => exact at_heads_cons (ih hrest _)
    | loose => exact at_heads_cons (ih hrest _)

end Contents

/-- A block in its place refers by a link to what it holds there. -/
theorem Placed.at_refer? {p : Placed} (hlinked : p.block.contents.Linked) (hlink : link ≠ .loose) :
    Held.At p.children (p.block.contents.held? link) (p.node.refer? link) := by
  cases link with
  | input name => exact Contents.at_inputsFrom hlinked p.id (p.id + 1) rfl
  | next => exact Contents.at_nextFrom hlinked p.id (p.id + 1)
  | loose => exact absurd rfl hlink

section Assemblies

/-- Whether a content may stand under a link: only inputs hold values. -/
def Link.Takes (link : Link) (content : Content) : Prop :=
  ∀ value, content = .literal value → ∃ name, link = .input name

/-- An input takes anything. -/
theorem Link.takes_input (name : String) (content : Content) : (Link.input name).Takes content :=
  fun _ _ => ⟨name, rfl⟩

private theorem held?_literal_of_ne {other : Link} (hne : link ≠ other) (value : Value)
    (contents : Contents) : (other.literal value contents).held? link = contents.held? link := by
  cases other with
  | input name => exact if_neg hne
  | next => rfl
  | loose => rfl

/-- A complete block holds what its steps attach. -/
theorem held?_assembleFrom (hok : assembleFrom face steps = (b, none))
    (hnodup : (steps.filterMap Step.link?).Nodup) {content : Content}
    (hmem : .attach link content ∈ steps) (htakes : link.Takes content) :
    b.contents.held? link = content.held? := by
  fun_induction assembleFrom face steps generalizing b with
  | case1 face => cases hmem
  | case2 face name field rest ih =>
    exact ih hok hnodup ((mem_cons.mp hmem).resolve_left (by rintro ⟨⟩))
  | case3 face m rest ih => exact ih hok hnodup ((mem_cons.mp hmem).resolve_left (by rintro ⟨⟩))
  | case4 => cases hok
  | case5 face other value rest b' fault heq ih =>
    cases hok
    obtain ⟨hfresh, hrest⟩ := nodup_cons.mp hnodup
    rcases mem_cons.mp hmem with hfirst | hmem
    · cases hfirst
      obtain ⟨name, rfl⟩ := htakes value rfl
      exact if_pos rfl
    · have hne : link ≠ other := fun h => hfresh (h ▸ mem_filterMap.mpr ⟨_, hmem, rfl⟩)
      exact (held?_literal_of_ne hne value b'.contents).trans (ih heq hrest hmem)
  | case6 face other held rest b' fault heq ih =>
    cases hok
    obtain ⟨hfresh, hrest⟩ := nodup_cons.mp hnodup
    rcases mem_cons.mp hmem with hfirst | hmem
    · cases hfirst
      exact if_pos rfl
    · have hne : link ≠ other := fun h => hfresh (h ▸ mem_filterMap.mpr ⟨_, hmem, rfl⟩)
      exact (if_neg hne).trans (ih heq hrest hmem)
  | case7 face other rest ih =>
    obtain ⟨hfresh, hrest⟩ := nodup_cons.mp hnodup
    rcases mem_cons.mp hmem with hfirst | hmem
    · cases hfirst
      exact Contents.held?_eq_none fun hlink => hfresh ((links_of_assembleFrom hok).subset hlink)
    · exact ih hok hrest hmem
  | case8 => cases hok
  | case9 => cases hok

/-- A complete block holds nothing under the links of no step. -/
theorem held?_assembleFrom_eq_none (hok : assembleFrom face steps = (b, none))
    (hlink : link ∉ steps.filterMap Step.link?) : b.contents.held? link = none :=
  Contents.held?_eq_none fun hmem => hlink ((links_of_assembleFrom hok).subset hmem)

end Assemblies

end

/-! ### Bodies -/

variable {start : Option Input} {b : Block} {id : Nat} {node : Node} {steps : List Step}
  {stmt : Stmt} {body : List Stmt} {c : LowerContext} {program : Program} {opcode : String}
  {q : Placed}

/-- Whether a statement only declares. -/
def Stmt.isDeclaration : Stmt → Bool
  | .varDecl .. | .constDecl .. | .funcDecl .. | .event .. => true
  | _ => false

namespace LowerContext

/-- The statements of a body that become blocks: no declarations, and none after one that control
never passes. -/
def emitted (c : LowerContext) : List Stmt → List Stmt
  | [] => []
  | stmt :: rest =>
    if stmt.isDeclaration then emitted c rest
    else if c.stops stmt then [stmt]
    else stmt :: emitted c rest

mutual

/-- A statement whose bodies are cut. -/
def cut (c : LowerContext) : Stmt → Stmt
  | .funcDecl name params body span endLine => .funcDecl name params (cutAll c body) span endLine
  | .event kind name param body span endLine =>
    .event kind name param (cutAll c body) span endLine
  | .branch condition thenBody elseBody span =>
    .branch condition (cutAll c thenBody) (cutAll c elseBody) span
  | .loop kind body span => .loop kind (cutAll c body) span
  | stmt => stmt

/-- A body without the statements after the first one that control never passes, in all bodies in
it as well. -/
def cutAll (c : LowerContext) : List Stmt → List Stmt
  | [] => []
  | stmt :: rest => cut c stmt :: if c.stops stmt then [] else cutAll c rest

end

end LowerContext

/-- A program whose bodies are cut. -/
def Program.cut (c : LowerContext) (program : Program) : Program :=
  { program with statements := program.statements.map c.cut }

/-- The handlers and functions of a program. -/
def Program.scripts (program : Program) : List Stmt :=
  program.statements.filter (·.scriptHead?.isSome)

namespace Graph

/-- Whether the blocks `ids` follow one another from a reference on, and nothing follows the
last. -/
def IsChain (g : Graph) : Option Input → List Nat → Prop
  | start, [] => start = none
  | start, id :: rest => start = some (.block id) ∧
      ∃ node, g.nodes[id]? = some node ∧ g.IsChain (node.refer? .next) rest

/-- Whether a block stands at a number with all that it holds; more may come after it. -/
def Shows (g : Graph) (b : Block) (id : Nat) : Prop :=
  ∃ node, g.nodes[id]? = some node ∧ node.face = b.face ∧
    node.inputs = b.contents.inputsFrom (id + 1) .empty ∧
    (g.nodes.drop (id + 1)).take b.contents.size = b.contents.nodes id (id + 1)

/-- Whether the block with a number begins the script of an item. -/
def Heads (g : Graph) (c : LowerContext) (item : Stmt) (top : Nat) : Prop :=
  ∃ head, item.scriptHead? = some head ∧ g.Begins c.catalog c.defs head top

/-- Whether the block with a number is what a statement is lowered to. -/
def Lowers (g : Graph) (c : LowerContext) (stmt : Stmt) (id : Nat) : Prop :=
  ∃ b, (c.lowerStmt stmt).1 = ⟨some b, none⟩ ∧ g.Shows b id

/-- Where the bodies of a program that are lowered begin in its graph: after the hat of a handler or
the definition of a function, or in the inputs of a branch or loop that is lowered itself. -/
inductive BodyAt (g : Graph) (c : LowerContext) (program : Program) :
    LowerContext → List Stmt → Option Input → Prop where
  | event {kind : EventKind} {name : String} {param : Option Expr} {body : List Stmt} {span : Span}
      {endLine top : Nat} {node : Node}
      (hscript : (.event kind name param body span endLine, top) ∈ program.scripts.zip g.tops)
      (hnode : g.nodes[top]? = some node) : BodyAt g c program c body (node.refer? .next)
  | function {name : String} {params : List Parameter} {body : List Stmt} {span : Span}
      {endLine top : Nat} {node : Node} {f : Function}
      (hscript : (.funcDecl name params body span endLine, top) ∈ program.scripts.zip g.tops)
      (hf : c.defs.functions.get? name = some f) (hnode : g.nodes[top]? = some node) :
      BodyAt g c program { c with function := some f } body (node.refer? .next)
  | thenBody {c' : LowerContext} {body : List Stmt} {start : Option Input} {ids : List Nat}
      {condition : Expr} {thenBody elseBody : List Stmt} {span : Span} {id : Nat} {node : Node}
      (hbody : BodyAt g c program c' body start) (hchain : g.IsChain start ids)
      (hstmt : (.branch condition thenBody elseBody span, id) ∈ (c'.emitted body).zip ids)
      (hnode : g.nodes[id]? = some node) :
      BodyAt g c program c' thenBody (node.refer? (.input "SUBSTACK"))
  | elseBody {c' : LowerContext} {body : List Stmt} {start : Option Input} {ids : List Nat}
      {condition : Expr} {thenBody elseBody : List Stmt} {span : Span} {id : Nat} {node : Node}
      (hbody : BodyAt g c program c' body start) (hchain : g.IsChain start ids)
      (hstmt : (.branch condition thenBody elseBody span, id) ∈ (c'.emitted body).zip ids)
      (hnode : g.nodes[id]? = some node) :
      BodyAt g c program c' elseBody (node.refer? (.input "SUBSTACK2"))
  | loop {c' : LowerContext} {body : List Stmt} {start : Option Input} {ids : List Nat}
      {kind : LoopKind} {inner : List Stmt} {span : Span} {id : Nat} {node : Node}
      (hbody : BodyAt g c program c' body start) (hchain : g.IsChain start ids)
      (hstmt : (.loop kind inner span, id) ∈ (c'.emitted body).zip ids)
      (hnode : g.nodes[id]? = some node) :
      BodyAt g c program c' inner (node.refer? (.input "SUBSTACK"))

end Graph

namespace Contents

variable (contents more : Contents)

/-- Inputs are filled in order. -/
theorem inputsFrom_append (start : Nat) (inputs : Table String Input) :
    (contents.append more).inputsFrom start inputs =
      more.inputsFrom (start + contents.size) (contents.inputsFrom start inputs) := by
  induction contents generalizing start inputs with
  | empty => rfl
  | literal input value rest ih => exact ih start _
  | block link face contents rest _ ih =>
    have hsize :
        start + (1 + contents.size + rest.size) = start + 1 + contents.size + rest.size := by
      omega
    cases link with
    | input name => rw [append, inputsFrom, ih, size, hsize, inputsFrom]
    | next | loose => rw [append, inputsFrom, ih, size, hsize, inputsFrom] <;> rintro _ ⟨⟩

private theorem nodes_append (parent start : Nat) : (contents.append more).nodes parent start =
      contents.nodes parent start ++ more.nodes parent (start + contents.size) := by
  induction contents generalizing start with
  | empty => rfl
  | literal input value rest ih => exact ih start
  | block link face contents rest _ ih =>
    have hsize :
        start + (1 + contents.size + rest.size) = start + 1 + contents.size + rest.size := by
      omega
    rw [append, nodes, ih, size, hsize, nodes, append_assoc]

private theorem cons_placed_infix {parent start : Nat} {contents : Contents}
    (hq : q ∈ contents.placed parent start) :
    q :: q.block.contents.placed q.id (q.id + 1) <:+: contents.placed parent start := by
  induction contents generalizing parent start with
  | empty => cases hq
  | literal input value rest ih => exact ih hq
  | block link face contents rest ihContents ihRest =>
    rcases mem_append.mp hq with hinner | hrest
    · rcases mem_cons.mp hinner with rfl | hinner
      · exact (prefix_append _ _).isInfix
      · exact ((ihContents hinner).trans (suffix_cons _ _).isInfix).trans
          (prefix_append _ _).isInfix
    · exact (ihRest hrest).trans (suffix_append _ _).isInfix

end Contents

private theorem Contents.held?_append (link : Link) (contents more : Contents) :
    (contents.append more).held? link = (contents.held? link <|> more.held? link) := by
  induction contents with
  | empty => rfl
  | literal input value rest ih | block other face contents rest _ ih =>
    rw [append, held?, held?, ih]
    split <;> rfl

namespace Graph

variable {scripts : List Block}

private theorem cons_placedFrom_infix {start : Nat} (hq : q ∈ placedFrom start scripts) :
    q :: q.block.contents.placed q.id (q.id + 1) <:+: placedFrom start scripts := by
  induction scripts generalizing start with
  | nil => cases hq
  | cons script rest ih =>
    rcases mem_append.mp hq with hscript | hrest
    · rcases mem_cons.mp hscript with rfl | hinner
      · exact (prefix_append _ _).isInfix
      · exact ((Contents.cons_placed_infix hinner).trans (suffix_cons _ _).isInfix).trans
          (prefix_append _ _).isInfix
    · exact (ih hrest).trans (suffix_append _ _).isInfix

private theorem exists_drop_nodes {p : Placed} (hp : p ∈ placedFrom 0 scripts) :
    ∃ after, (ofScripts scripts).nodes.drop (p.id + 1) = p.block.contents.nodes p.id (p.id + 1) ++
    after := by
  obtain ⟨before, after, hsplit⟩ := cons_placedFrom_infix hp
  have hlen : p.id = before.length := by
    have hget : (placedFrom 0 scripts)[before.length]? = some p := by
      rw [← hsplit, append_assoc, getElem?_append_right le_rfl]
      simp
    exact id_of_getElem? hget
  have hnodes : (ofScripts scripts).nodes = (placedFrom 0 scripts).map Placed.node :=
    layoutFrom_eq_map_placed 0 scripts
  refine ⟨after.map Placed.node, ?_⟩
  rw [hnodes, ← hsplit, Contents.nodes_eq_map_placed, ← map_append, ← map_drop,
    append_assoc, hlen, ← drop_drop, drop_left]
  rfl

/-- Whether a block is placed at a number, maybe with one more block after it. -/
def StandsAt (placed : List Placed) (b : Block) (id : Nat) : Prop :=
  ∃ p ∈ placed, p.id = id ∧ (p.block = b ∨ ∃ next, p.block = b.holding .next next)

/-- What stands there shows there. -/
theorem StandsAt.shows (h : StandsAt (placedFrom 0 scripts) b id) :
    (ofScripts scripts).Shows b id := by
  obtain ⟨p, hp, rfl, hblock⟩ := h
  obtain ⟨after, hdrop⟩ := exists_drop_nodes hp
  have hnode := getElem?_ofScripts_iff.mpr ⟨p, hp, rfl, rfl⟩
  rcases hblock with rfl | ⟨next, hblock⟩
  · refine ⟨p.node, hnode, rfl, rfl, ?_⟩
    rw [hdrop, take_left' (Contents.length_nodes _ _ _)]
  · refine ⟨p.node, hnode, ?_, ?_, ?_⟩
    · rw [Placed.node, Contents.node, hblock]
      rfl
    · rw [Placed.node, Contents.node, hblock]
      exact Contents.inputsFrom_append _ _ _ _
    · rw [hdrop, hblock, Block.holding, Contents.nodes_append, append_assoc,
        take_left' (Contents.length_nodes _ _ _)]

/-- A block that is placed refers by its inputs to what it holds there. -/
theorem StandsAt.at_input (hlink : ∀ b ∈ scripts, b.Linked)
    (h : StandsAt (placedFrom 0 scripts) b id) (hnode : (ofScripts scripts).nodes[id]? = some node)
    (name : String) :
    Held.At (placedFrom 0 scripts) (b.contents.held? (.input name))
    (node.refer? (.input name)) := by
  obtain ⟨p, hp, rfl, hblock⟩ := h
  have hp' := getElem?_ofScripts_iff.mpr ⟨p, hp, rfl, rfl⟩
  obtain rfl : p.node = node := Option.some.inj (hp'.symm.trans hnode)
  have hchild :
      Held.At p.children (p.block.contents.held? (.input name)) (p.node.refer? (.input name)) :=
    Placed.at_refer? (linked_of_mem_placedFrom hlink hp).1.1 nofun
  have hat := hchild.mono fun q hq => mem_of_mem_children hp hq
  have hheld : p.block.contents.held? (.input name) = b.contents.held? (.input name) := by
    rcases hblock with rfl | ⟨next, hblock⟩
    · rfl
    · rw [hblock, Block.holding, Contents.held?_append]
      cases b.contents.held? (.input name) <;> rfl
  rwa [hheld] at hat

end Graph

/-- A body after steps that are apart has a link of its own. -/
theorem StepsApart.nodup_bodyStep (h : StepsApart steps) (c : LowerContext) (body : List Stmt) :
    ((steps ++ [c.bodyStep body]).filterMap Step.link?).Nodup := by
  rw [filterMap_append]
  exact h.nodup.append (nodup_singleton _) (disjoint_singleton.mpr h.next_not_mem)

/-- Whether an assembly without a fault has a block. -/
def Assembly.Whole (a : Assembly) : Prop := a.fault = none → ∃ b, a = ⟨some b, none⟩

namespace LowerContext

variable {c : LowerContext}

private theorem whole_assemble (opcode : String) (steps : List Step) :
    (assemble opcode steps).Whole :=
  exists_of_assemble

private theorem whole_lowerCall (name : String) (args : List Expr) (span : Span) :
    (c.lowerCall name args span).1.Whole := by
  unfold lowerCall
  split
  · exact whole_assemble _ _
  split
  · exact whole_assemble _ _
  split
  · rintro ⟨⟩
  split
  · rintro ⟨⟩
  · exact whole_assemble _ _

private theorem whole_lowerAssign (target : String) (op : AssignOp) (value : Expr) (span : Span) :
    (c.lowerAssign target op value span).Whole := by
  unfold lowerAssign assignVariable assignProperty
  split
  · split <;> exact whole_assemble _ _
  split
  · split
    · exact whole_assemble _ _
    · exact whole_assemble _ _
    · exact whole_assemble _ _
    · split
      · exact nofun
      · exact whole_assemble _ _
  · exact nofun

private theorem lowerStmt_of_isDeclaration (h : stmt.isDeclaration) :
    c.lowerStmt stmt = ({}, false) := by
  cases stmt with
  | varDecl | constDecl | funcDecl | event => rw [lowerStmt]
  | _ => cases h

private theorem whole_lowerStmt (hstmt : stmt.isDeclaration = false) :
    (c.lowerStmt stmt).1.Whole := by
  cases stmt with
  | varDecl | constDecl | funcDecl | event => cases hstmt
  | call name args span =>
    rw [lowerStmt]
    exact whole_lowerCall name args span
  | assign target op value span =>
    rw [lowerStmt]
    exact whole_lowerAssign target op value span
  | branch condition thenBody elseBody span =>
    rw [lowerStmt]
    dsimp only
    split <;> exact whole_assemble _ _
  | loop kind body span =>
    rw [lowerStmt]
    exact whole_assemble _ _

private theorem lowerStmt_snd (stmt : Stmt) : (c.lowerStmt stmt).2 = c.stops stmt := by
  cases stmt with
  | varDecl | constDecl | funcDecl | event | assign | loop => rw [lowerStmt]; rfl
  | branch condition thenBody elseBody span =>
    rw [lowerStmt]
    dsimp only
    split <;> rfl
  | call name args span =>
    rw [lowerStmt]
    cases hf : c.defs.functions.get? name with
    | some f => simp [lowerCall, stops, Table.contains, hf]
    | none =>
    cases hevent : c.defs.events.get? name with
    | some event => simp [lowerCall, stops, Table.contains, hf, hevent]
    | none =>
    cases hb : c.catalog.statements.get? name with
    | none => simp [lowerCall, stops, Table.contains, hf, hevent, hb]
    | some b =>
      cases hs : c.signature b args span <;>
        simp [lowerCall, stops, Table.contains, hf, hevent, hb, hs]

/-- What the block of a branch is assembled of. A branch without an alternative has no input for
it. -/
theorem lowerBranch_steps (condition : Expr) (thenBody elseBody : List Stmt) (span : Span) :
    ∃ opcode steps, (c.lowerStmt (.branch condition thenBody elseBody span)).1 = assemble opcode
      steps ∧ StepsApart steps ∧ .input "CONDITION" (c.lowerExpr condition) ∈ steps ∧
      .input "SUBSTACK" (c.lowerBody thenBody).content ∈ steps ∧
      (elseBody = [] ∧ .input "SUBSTACK2" ∉ steps.filterMap Step.link? ∨
      .input "SUBSTACK2" (c.lowerBody elseBody).content ∈ steps) := by
  rw [lowerStmt]
  dsimp only
  split
  · rename_i hempty
    refine ⟨_, _, rfl, .inputs (by decide) _ _, by simp, by simp, .inl ⟨?_, ?_⟩⟩
    · exact isEmpty_iff.mp hempty
    · simp [Step.input, Step.link?]
  · exact ⟨_, _, rfl, branchSteps_apart _ _ _, by simp, by simp, .inr (by simp)⟩

private theorem lowerEvent_steps (hapart : c.InputsApart) {kind : EventKind} {name : String}
    {param : Option Expr} {span : Span}
    (hok : c.lowerEvent kind name param body span = ⟨some b, none⟩) :
    ∃ opcode steps, StepsApart steps ∧ assemble opcode (steps ++ [c.bodyStep body]) =
    ⟨some b, none⟩ := by
  unfold lowerEvent at hok
  split at hok
  · split at hok
    · cases hok
    · rename_i event _
      exact ⟨_, [.entity "BROADCAST_OPTION" name event.id],
        .of_no_links (by simp [Step.entity, Step.link?]), hok⟩
  · split at hok
    · cases hok
    · rename_i signature hhat
      exact ⟨_, _, signatureSteps_apart hapart (Catalog.mem_signatures_of_hat? hhat) ("@" ++ name)
        (take_sublist 1 signature.params) param.toList, hok⟩

private theorem first_ofAssembly {rest : Chain} (hrest : rest.Linked) {stops : Bool}
    (hnext : .next ∉ b.contents.links)
    (hfault : (Chain.ofAssembly ⟨some b, none⟩ stops rest).fault = none) :
    ∃ first, (Chain.ofAssembly ⟨some b, none⟩ stops rest).first = some first ∧
      (first = b ∨ ∃ next, first = b.holding .next next) ∧
      first.contents.held? .next = (if stops then none else rest.first).map .block ∧
      (stops = false → rest.fault = none) := by
  have hnone : b.contents.held? .next = none := Contents.held?_eq_none hnext
  cases stops with
  | true => exact ⟨b, rfl, .inl rfl, hnone, nofun⟩
  | false =>
    change (Chain.cons b rest).fault = none at hfault
    change ∃ first, (Chain.cons b rest).first = some first ∧ _
    unfold Chain.cons at hfault ⊢
    cases hfirst : rest.first with
    | none =>
      rw [hfirst] at hfault
      exact ⟨b, rfl, .inl rfl, hnone, fun _ => hfault⟩
    | some next =>
      rw [hfirst] at hfault
      obtain ⟨hcomp, _⟩ := hrest next hfirst hfault
      refine ⟨_, rfl, .inr ⟨next, by rw [if_pos hcomp]⟩, ?_, fun _ => hfault⟩
      rw [if_pos hcomp, Block.holding, Contents.held?_append, hnone]
      rfl

end LowerContext

namespace Graph

variable {scripts : List Block} {c : LowerContext}

/-- Whether a body is complete and begins at a reference. -/
structure BeginsAt (scripts : List Block) (c : LowerContext) (body : List Stmt)
    (start : Option Input) : Prop where
  apart : c.InputsApart
  fault : (c.lowerBody body).fault = none
  held : Held.At (placedFrom 0 scripts) ((c.lowerBody body).first.map .block) start

/-- The blocks of a body follow one another, one for each statement that is emitted. -/
theorem BeginsAt.exists_chain (hlink : ∀ b ∈ scripts, b.Linked)
    (h : BeginsAt scripts c body start) :
    ∃ ids, (ofScripts scripts).IsChain start ids ∧
      List.Forall₂ (fun stmt id => ∃ b, (c.lowerStmt stmt).1 = ⟨some b, none⟩ ∧
        StandsAt (placedFrom 0 scripts) b id) (c.emitted body) ids := by
  obtain ⟨hapart, hfault, hheld⟩ := h
  induction body generalizing start with
  | nil =>
    rw [LowerContext.lowerBody] at hheld
    exact ⟨[], hheld, .nil⟩
  | cons stmt rest ih =>
    rw [LowerContext.lowerBody] at hfault hheld
    rw [LowerContext.emitted]
    cases hdecl : stmt.isDeclaration with
    | true =>
      rw [LowerContext.lowerStmt_of_isDeclaration hdecl] at hfault hheld
      exact ih hfault hheld
    | false =>
      have hblockFault : (c.lowerStmt stmt).1.fault = none := by
        cases hd : (c.lowerStmt stmt).1.fault with
        | none => rfl
        | some d =>
          simp only [Chain.ofAssembly, hd] at hfault
          cases (c.lowerStmt stmt).1.block <;> cases hfault
      obtain ⟨b, hb⟩ := LowerContext.whole_lowerStmt hdecl hblockFault
      obtain ⟨_, hnext, _⟩ := LowerContext.lowerStmt_stackable hapart stmt b hb
      dsimp only at hfault hheld
      rw [hb, LowerContext.lowerStmt_snd] at hfault hheld
      obtain ⟨first, hfirst, hblock, hafter, hrest⟩ :=
        LowerContext.first_ofAssembly (LowerContext.lowerBody_linked hapart rest) hnext hfault
      rw [hfirst] at hheld
      obtain ⟨p, hp, rfl, rfl⟩ := hheld
      have hnode := getElem?_ofScripts_iff.mpr ⟨p, hp, rfl, rfl⟩
      have hchild : Held.At p.children (p.block.contents.held? .next) (p.node.refer? .next) :=
        Placed.at_refer? (linked_of_mem_placedFrom hlink hp).1.1 (by decide)
      have hat := hchild.mono fun q hq => mem_of_mem_children hp hq
      rw [hafter] at hat
      cases hstops : c.stops stmt with
      | true =>
        rw [hstops] at hat
        exact ⟨[p.id], ⟨rfl, p.node, hnode, hat⟩, .cons ⟨b, hb, p, hp, rfl, hblock⟩ .nil⟩
      | false =>
        rw [hstops] at hat
        obtain ⟨ids, hchain, hids⟩ := ih (hrest hstops) hat
        exact ⟨p.id :: ids, ⟨rfl, p.node, hnode, hchain⟩, .cons ⟨b, hb, p, hp, rfl, hblock⟩ hids⟩

private theorem IsChain.unique {g : Graph} {ids ids' : List Nat} (h : g.IsChain start ids)
    (h' : g.IsChain start ids') : ids = ids' := by
  induction ids generalizing ids' start with
  | nil =>
    cases ids' with
    | nil => rfl
    | cons id' rest' => exact absurd (h.symm.trans h'.1) nofun
  | cons id rest ih =>
    obtain ⟨rfl, node, hnode, hrest⟩ := h
    cases ids' with
    | nil => cases h'
    | cons id' rest' =>
      obtain ⟨hid, node', hnode', hrest'⟩ := h'
      cases hid
      cases hnode.symm.trans hnode'
      rw [ih hrest hrest']

/-- The block of a chain that belongs to a statement is what the statement is lowered to. -/
theorem BeginsAt.exists_stands (hlink : ∀ b ∈ scripts, b.Linked) (h : BeginsAt scripts c body start)
    {ids : List Nat} (hchain : (ofScripts scripts).IsChain start ids)
    (hmem : (stmt, id) ∈ (c.emitted body).zip ids) :
    ∃ b, (c.lowerStmt stmt).1 = ⟨some b, none⟩ ∧ StandsAt (placedFrom 0 scripts) b id := by
  obtain ⟨ids', hchain', hids⟩ := h.exists_chain hlink
  obtain rfl := hchain.unique hchain'
  exact forall₂_zip hids hmem

private theorem beginsAt_input (hlink : ∀ b ∈ scripts, b.Linked) (hapart : c.InputsApart)
    {name : String} (hsteps : StepsApart steps) (hok : assemble opcode steps = ⟨some b, none⟩)
    (hmem : .input name (c.lowerBody body).content ∈ steps)
    (hstands : StandsAt (placedFrom 0 scripts) b id)
    (hnode : (ofScripts scripts).nodes[id]? = some node) :
    BeginsAt scripts c body (node.refer? (.input name)) := by
  have hfrom := assembleFrom_of_assemble hok
  have hheld := held?_assembleFrom hfrom hsteps.nodup hmem (Link.takes_input _ _)
  have hat := hstands.at_input hlink hnode name
  rw [hheld] at hat
  exact ⟨hapart, fault?_of_assembleFrom hfrom _ hmem, hat⟩

private theorem beginsAt_next (hlink : ∀ b ∈ scripts, b.Linked) (hapart : c.InputsApart) {top : Nat}
    (hsteps : StepsApart steps)
    (hok : assemble opcode (steps ++ [c.bodyStep body]) = ⟨some b, none⟩)
    (hplaced : ⟨top, none, b⟩ ∈ placedFrom 0 scripts)
    (hnode : (ofScripts scripts).nodes[top]? = some node) :
    BeginsAt scripts c body (node.refer? .next) := by
  have hfrom := assembleFrom_of_assemble hok
  have hmem : c.bodyStep body ∈ steps ++ [c.bodyStep body] :=
    mem_append_right _ mem_cons_self
  have hheld : b.contents.held? .next = (c.lowerBody body).content.held? :=
    held?_assembleFrom hfrom (hsteps.nodup_bodyStep c body) hmem nofun
  have hat : Held.At (Placed.children ⟨top, none, b⟩) (b.contents.held? .next)
      (Placed.node ⟨top, none, b⟩ |>.refer? .next) :=
    Placed.at_refer? (linked_of_mem_placedFrom hlink hplaced).1.1 nofun
  have hat := hat.mono fun q hq => mem_of_mem_children hplaced hq
  have htop := getElem?_ofScripts_iff.mpr ⟨_, hplaced, rfl, rfl⟩
  cases htop.symm.trans hnode
  rw [hheld] at hat
  exact ⟨hapart, fault?_of_assembleFrom hfrom _ hmem, hat⟩

end Graph

/-- The scripts that a program is lowered to. -/
def Program.blocks (c : LowerContext) (program : Program) : List Block :=
  (program.statements.map c.lowerItem).filterMap (·.block)

/-- Whether a program is lowered without a fault, in a context that keeps all inputs apart. -/
structure LowerContext.Succeeds (c : LowerContext) (program : Program) : Prop where
  apart : c.InputsApart
  fault : ∀ stmt ∈ program.statements, (c.lowerItem stmt).fault = none

private theorem Program.forall₂_blocks (hlow : c.Succeeds program) :
    List.Forall₂ (fun stmt b => b.Linked ∧ c.lowerItem stmt = ⟨some b, none⟩) program.scripts
      (program.blocks c) := by
  rw [scripts, ← filterMap_eq_filter, blocks, filterMap_map]
  refine forall₂_filterMap fun stmt hstmt => ?_
  have hnone := hlow.fault stmt hstmt
  have hbeg := LowerContext.lowerItem_begins hlow.apart hnone
  change Option.Rel _ _ (c.lowerItem stmt).block
  cases hblock : (c.lowerItem stmt).block with
  | none =>
    rw [hblock] at hbeg
    cases hhead : stmt.scriptHead? with
    | none => rw [Option.guard, if_neg (by simp [hhead])]; exact .none
    | some head => rw [hhead] at hbeg; cases hbeg
  | some b =>
    rw [hblock] at hbeg
    cases hhead : stmt.scriptHead? with
    | none => rw [hhead] at hbeg; cases hbeg
    | some head =>
      rw [hhead] at hbeg
      cases hbeg with
      | some hbeg =>
        rw [Option.guard, if_pos (by simp [hhead])]
        exact .some ⟨hbeg.1, by rw [← hblock, ← hnone]⟩

/-- Complete scripts are linked. -/
theorem LowerContext.Succeeds.linked (h : c.Succeeds program) : ∀ b ∈ program.blocks c, b.Linked :=
  ((forall₂_and_left ..).mp (Program.forall₂_blocks h).flip).1

namespace Graph

/-- What the items of a program that begin scripts are lowered to stands at the top blocks. -/
theorem forall₂_scripts_tops (hlow : c.Succeeds program) :
    List.Forall₂ (fun stmt top => ∃ b, c.lowerItem stmt = ⟨some b, none⟩ ∧
      ⟨top, none, b⟩ ∈ placedFrom 0 (program.blocks c)) program.scripts
      (ofScripts (program.blocks c)).tops :=
  forall₂_trans (fun _ b _ hb hplaced => ⟨b, hb.2, hplaced⟩)
    (Program.forall₂_blocks hlow) forall₂_placed_tops

/-- Each script has its top. -/
theorem forall₂_heads_tops (hlow : c.Succeeds program) :
    List.Forall₂ ((ofScripts (program.blocks c)).Heads c) program.scripts
    (ofScripts (program.blocks c)).tops := by
  refine (forall₂_scripts_tops hlow).imp fun stmt top ⟨b, hb, hplaced⟩ => ?_
  have hbeg := LowerContext.lowerItem_begins hlow.apart (congrArg Assembly.fault hb)
  rw [hb] at hbeg
  cases hhead : stmt.scriptHead? with
  | none =>
    rw [hhead] at hbeg
    cases hbeg
  | some head =>
    rw [hhead] at hbeg
    cases hbeg with
    | some hbeg => exact ⟨head, hhead, begins_of_placed hplaced hbeg.1 hbeg.2⟩

/-- Every body that is lowered is complete and begins where it should. The induction goes from a
body to the bodies in its statements. -/
theorem BodyAt.beginsAt {c' : LowerContext} (hlow : c.Succeeds program)
    (h : BodyAt (ofScripts (program.blocks c)) c program c' body start) :
    BeginsAt (program.blocks c) c' body start := by
  have hlink := hlow.linked
  induction h with
  | event hscript hnode =>
    obtain ⟨b, hb, hplaced⟩ := forall₂_zip (forall₂_scripts_tops hlow) hscript
    obtain ⟨opcode, steps, hsteps, hok⟩ := LowerContext.lowerEvent_steps hlow.apart hb
    exact beginsAt_next hlink hlow.apart hsteps hok hplaced hnode
  | @function name params body span endLine top node f hscript hf hnode =>
    obtain ⟨b, hb, hplaced⟩ := forall₂_zip (forall₂_scripts_tops hlow) hscript
    rw [LowerContext.lowerItem, LowerContext.lowerFunction, hf] at hb
    have hinner : LowerContext.InputsApart { c with function := some f } :=
      ⟨hlow.apart.signatures, hlow.apart.functions⟩
    exact beginsAt_next hlink hinner (.input "custom_block" _) hb hplaced hnode
  | thenBody hbody hchain hstmt hnode ih =>
    obtain ⟨b, hb, hstands⟩ := ih.exists_stands hlink hchain hstmt
    obtain ⟨opcode, steps, hlower, hsteps, _, hthen, _⟩ := LowerContext.lowerBranch_steps ..
    exact beginsAt_input hlink ih.apart hsteps (hlower.symm.trans hb) hthen hstands hnode
  | elseBody hbody hchain hstmt hnode ih =>
    obtain ⟨b, hb, hstands⟩ := ih.exists_stands hlink hchain hstmt
    obtain ⟨opcode, steps, hlower, hsteps, _, _, helse⟩ := LowerContext.lowerBranch_steps ..
    have hok := hlower.symm.trans hb
    rcases helse with ⟨rfl, hnone⟩ | helse
    · have hat := hstands.at_input hlink hnode "SUBSTACK2"
      rw [held?_assembleFrom_eq_none (assembleFrom_of_assemble hok) hnone] at hat
      exact ⟨ih.apart, by rw [LowerContext.lowerBody], by rw [LowerContext.lowerBody]; exact hat⟩
    · exact beginsAt_input hlink ih.apart hsteps hok helse hstands hnode
  | @loop c' body start ids kind inner span id node hbody hchain hstmt hnode ih =>
    obtain ⟨b, hb, hstands⟩ := ih.exists_stands hlink hchain hstmt
    rw [LowerContext.lowerStmt] at hb
    exact beginsAt_input hlink ih.apart (LowerContext.lowerLoop_apart kind _) hb
      (mem_append_right _ mem_cons_self) hstands hnode

end Graph

namespace LowerContext

variable {c : LowerContext}

/-- Declarations never stop. -/
theorem isDeclaration_of_stops (h : c.stops stmt) : stmt.isDeclaration = false := by
  cases stmt <;> first | rfl | cases h

private theorem ofAssembly_stops {a : Assembly} (hwhole : a.Whole) (rest rest' : Chain) :
    Chain.ofAssembly a true rest = Chain.ofAssembly a true rest' := by
  obtain ⟨block, fault⟩ := a
  cases fault with
  | some d => cases block <;> rfl
  | none =>
    obtain ⟨b, hb⟩ := hwhole rfl
    cases hb
    rfl

mutual

private theorem lowerStmt_cut (function : Option Function) : ∀ stmt : Stmt,
    { c with function }.lowerStmt (c.cut stmt) = { c with function }.lowerStmt stmt
  | .varDecl .. | .constDecl .. | .call .. | .assign .. => by
    rw [cut]
    all_goals nofun
  | .funcDecl .. | .event .. => by rw [cut, lowerStmt, lowerStmt]
  | .branch condition thenBody elseBody span => by
    have hempty : (c.cutAll elseBody).isEmpty = elseBody.isEmpty := by
      cases elseBody with
      | nil => rw [cutAll]
      | cons stmt rest => rw [cutAll]; rfl
    rw [cut, lowerStmt, lowerStmt, lowerBody_cutAll function thenBody,
      lowerBody_cutAll function elseBody, hempty]
  | .loop kind body span => by rw [cut, lowerStmt, lowerStmt, lowerBody_cutAll function body]

private theorem lowerBody_cutAll (function : Option Function) : ∀ body : List Stmt,
    { c with function }.lowerBody (c.cutAll body) = { c with function }.lowerBody body
  | [] => by rw [cutAll]
  | stmt :: rest => by
    rw [cutAll, lowerBody, lowerBody, lowerStmt_cut function stmt]
    dsimp only
    have hsnd : ({ c with function }.lowerStmt stmt).2 = c.stops stmt := lowerStmt_snd stmt
    cases hstops : c.stops stmt with
    | true =>
      rw [hsnd, hstops]
      exact ofAssembly_stops (whole_lowerStmt (isDeclaration_of_stops hstops)) _ _
    | false =>
      rw [hsnd, hstops, if_neg Bool.false_ne_true, lowerBody_cutAll function rest]

end

private theorem lowerItem_cut (stmt : Stmt) : c.lowerItem (c.cut stmt) = c.lowerItem stmt := by
  cases stmt with
  | event kind name param body span endLine =>
    have hbody : c.lowerBody (c.cutAll body) = c.lowerBody body := lowerBody_cutAll c.function body
    rw [cut, lowerItem, lowerItem]
    unfold lowerEvent bodyStep
    rw [hbody]
  | funcDecl name params body span endLine =>
    rw [cut, lowerItem, lowerItem, lowerFunction, lowerFunction]
    cases c.defs.functions.get? name with
    | none => rfl
    | some f =>
      dsimp only
      rw [bodyStep, bodyStep, lowerBody_cutAll (some f) body]
  | varDecl | constDecl | call | assign =>
    rw [cut]
    all_goals nofun
  | branch condition thenBody elseBody span => rw [cut]; rfl
  | loop kind body span => rw [cut]; rfl

end LowerContext

/-- The statements that control never reaches leave no trace in the graph. -/
theorem Program.lower_cut (catalog : Catalog) (types : TypeTable) (defs : Definitions)
    (program : Program) :
    (program.cut { defs, types, catalog }).lower catalog types defs =
      program.lower catalog types defs := by
  unfold lower cut
  dsimp only
  rw [map_map, show LowerContext.lowerItem _ ∘ LowerContext.cut { defs, types, catalog } =
    LowerContext.lowerItem { defs, types, catalog } from funext LowerContext.lowerItem_cut]

/-- What the lowering of a compilation looks up. -/
def Stages.lowerContext (st : Stages) (catalog : Catalog) : LowerContext :=
  { defs := st.folding.defs, types := st.analysis.types, catalog }

/-- Every body of a program that is lowered without a fault becomes the chain of its statements. -/
theorem Graph.BodyAt.chain {c' : LowerContext} (hlow : c.Succeeds program)
    (h : BodyAt (ofScripts (program.blocks c)) c program c' body start) :
    ∃ ids, (ofScripts (program.blocks c)).IsChain start ids ∧
      List.Forall₂ ((ofScripts (program.blocks c)).Lowers c') (c'.emitted body) ids := by
  obtain ⟨ids, hchain, hids⟩ := (h.beginsAt hlow).exists_chain hlow.linked
  exact ⟨ids, hchain, hids.imp fun _ _ ⟨b, hb, hstands⟩ => ⟨b, hb, hstands.shows⟩⟩

/-- The graph of a program that is compiled for the robot is that of its scripts, none of which has
a fault. -/
theorem blocks_of_compile {path : String} {pictures : Pictures} {options : CompileOptions}
    {source : Source} {result : Compilation}
    (h : compile path Robot.catalog pictures options source = .ok result) :
    ∃ st, stagesOf path Robot.catalog pictures options.defines options.analysis source = .ok st ∧
      st.Clean ∧ (st.lowerContext Robot.catalog).Succeeds st.folding.program ∧
      result.graph = .ofScripts (st.folding.program.blocks (st.lowerContext Robot.catalog)) := by
  obtain ⟨st, hst, hclean, hgraph, _⟩ := stages_of_compile h
  obtain ⟨macros, tokens, _, rfl⟩ := stagesOf_eq_ok_iff.mp hst
  have hlower := filterMap_eq_nil_iff.mp (hclean.lowering_errors Robot.complete)
  exact ⟨_, hst, hclean, ⟨hclean.inputsApart Robot.complete Robot.nodup_inputs rfl,
    fun stmt hstmt => hlower _ (mem_map_of_mem hstmt)⟩, hgraph⟩

/-- No statement of a program that is compiled for the robot is lost, doubled or moved. In every
body of the folded program that is lowered, the blocks from its beginning on are those of its
statements that are no declarations, in order, up to the first that control never passes; without
such statements nothing is there. The statements after it have no blocks: the program without them
has the same graph.
-/
theorem compile_chains {path : String} {pictures : Pictures} {options : CompileOptions}
    {source : Source} {result : Compilation}
    (h : compile path Robot.catalog pictures options source = .ok result) :
    ∃ st, stagesOf path Robot.catalog pictures options.defines options.analysis source = .ok st ∧
      let c := st.lowerContext Robot.catalog
      let program := st.folding.program
      List.Forall₂ (result.graph.Heads c) program.scripts result.graph.tops ∧
      (∀ c' body start, result.graph.BodyAt c program c' body start →
        (∃ ids, result.graph.IsChain start ids ∧
          List.Forall₂ (result.graph.Lowers c') (c'.emitted body) ids) ∧
        (c'.emitted body = [] → start = none)) ∧
      ((program.cut c).lower Robot.catalog c.types c.defs).graph = result.graph := by
  obtain ⟨st, hst, _, hlow, hblocks⟩ := blocks_of_compile h
  refine ⟨st, hst, ?_, fun c' body start hbody => ?_, ?_⟩
  · rw [hblocks]
    exact Graph.forall₂_heads_tops hlow
  · rw [hblocks] at hbody ⊢
    obtain ⟨ids, hchain, hids⟩ := hbody.chain hlow
    refine ⟨⟨ids, hchain, hids⟩, fun hnil => ?_⟩
    rw [hnil] at hids
    cases hids
    exact hchain
  · rw [hblocks]
    exact congrArg Lowering.graph (Program.lower_cut _ _ _ _)

/-- A program with a branch, a loop without end and a statement after it. -/
def patrol : Source :=
  Source.ofText <| "var n = 0\n@start:\n  if n < 3:\n    n += 1\n  else:\n    n = 0\n" ++
    "  loop:\n    drive.move(n)\n  n = 9\n"

/-- Its bodies are chains. -/
theorem compile_chains_patrol :
    ∃ result st, compile "main.bot" Robot.catalog noPictures {} patrol = .ok result ∧
      stagesOf "main.bot" Robot.catalog noPictures [] {} patrol = .ok st ∧ result.graph.size = 11 ∧
      ∀ c' body start,
        result.graph.BodyAt (st.lowerContext Robot.catalog) st.folding.program c' body start →
        ∃ ids, result.graph.IsChain start ids ∧
          List.Forall₂ (result.graph.Lowers c') (c'.emitted body) ids := by
  have hany : (compile "main.bot" Robot.catalog noPictures {} patrol).toOption.any
      (·.graph.size == 11) = true := by decide +kernel
  obtain ⟨result, hres, hsize⟩ := exists_of_toOption_any hany
  obtain ⟨st, hst, _, hchains, _⟩ := compile_chains hres
  exact ⟨result, st, hres, hst, beq_iff_eq.mp hsize,
    fun c' body start hbody => (hchains c' body start hbody).1⟩

end BlockScript
