import BlockScript.Proofs.ReadBack

/-!
# How blocks come about

Every block of a program that is lowered without a fault is assembled in one of a few ways: it is an
operator or a part of the control flow, it reports or assigns an entity, it stands for an entry of
the catalog with the arguments of a call, it is a menu, or it calls a function. Each way is said by
the kind of block and the steps that assemble it, and whatever is true of all these ways is true of
all blocks.
-/

namespace BlockScript

open List

variable {body : List Stmt} {b : Block} {top endLine id start : Nat} {node : Node}

mutual

/-- The calls in an expression, with their arguments. -/
def Expr.calls : Expr → List (String × List Expr)
  | .literal .. | .ident .. => []
  | .call _ callee args => (callee, args) :: callsAll args
  | .cast _ _ operand => operand.calls
  | .list _ items => callsAll items
  | .not _ operand => operand.calls
  | .binary _ _ left right => left.calls ++ right.calls
  | .group _ inner => inner.calls

/-- The calls in several expressions. -/
def Expr.callsAll : List Expr → List (String × List Expr)
  | [] => []
  | e :: rest => e.calls ++ callsAll rest

end

/-- The calls in the header of a loop. -/
def LoopKind.calls : LoopKind → List (String × List Expr)
  | .forever => []
  | .times count => count.calls
  | .until condition => condition.calls

mutual

/-- The calls in a statement, with their arguments. A handler calls its event, which is marked by
`@`. -/
def Stmt.calls : Stmt → List (String × List Expr)
  | .varDecl _ _ value _ _ => value.toList.flatMap Expr.calls
  | .constDecl _ _ value _ => value.calls
  | .funcDecl _ _ body _ _ => callsAll body
  | .event _ name param body _ _ =>
    ("@" ++ name, param.toList) :: (param.toList.flatMap Expr.calls ++ callsAll body)
  | .call name args _ => (name, args) :: Expr.callsAll args
  | .assign _ _ value _ => value.calls
  | .branch condition thenBody elseBody _ =>
    condition.calls ++ (callsAll thenBody ++ callsAll elseBody)
  | .loop kind body _ => kind.calls ++ callsAll body

/-- The calls in statements. -/
def Stmt.callsAll : List Stmt → List (String × List Expr)
  | [] => []
  | stmt :: rest => stmt.calls ++ callsAll rest

end

/-- The calls in a program. -/
def Program.calls (program : Program) :
    List (String × List Expr) := Stmt.callsAll program.statements

private theorem Stmt.calls_subset_callsAll {stmt : Stmt} {stmts : List Stmt} (h : stmt ∈ stmts) :
    stmt.calls ⊆ callsAll stmts := by
  induction stmts with
  | nil => cases h
  | cons first rest ih =>
    rw [callsAll]
    rcases mem_cons.mp h with rfl | h
    · exact subset_append_left _ _
    · exact subset_append_of_subset_right _ (ih h)

private theorem Step.link?_input (name : String) (content : Content) :
    (Step.input name content).link? ≠ none :=
  nofun

/-- The kinds of blocks that have inputs alone. -/
def plainOpcodes : List String :=
  ["operator_not", "event_broadcast", "control_if", "control_if_else", "control_forever",
    "control_repeat", "control_repeat_until"] ++ Operation.all.map (·.layout.1)

/-- Operators have plain opcodes. -/
theorem BinaryOp.layout_mem_plainOpcodes (op : BinaryOp) (type : DataType) :
    (op.layout type).1 ∈ plainOpcodes := by
  rw [← op.layout_operation type]
  refine mem_append_right _ (mem_map_of_mem ?_)
  generalize op.operation type = operation
  cases operation with
  | join => decide
  | binary op => cases op <;> decide

/-- The kinds of blocks that report a parameter. -/
def argumentOpcodes :
    List String := ["argument_reporter_boolean", "argument_reporter_string_number"]

/-- Reporters of parameters. -/
theorem DataType.reporterOpcode_mem (type : DataType) : type.reporterOpcode ∈ argumentOpcodes := by
  unfold DataType.reporterOpcode
  split <;> decide

/-- The kinds of blocks that belong to no entry of a catalog. -/
def ownOpcodes : List String :=
  plainOpcodes ++ variableOpcodes ++ argumentOpcodes ++ ["data_listcontents", "procedures_call",
    "procedures_definition", "procedures_prototype", "event_broadcast_menu",
    "event_whenbroadcastreceived"]

/-- The kind of block in the menu of a slot. -/
def Slot.menu? : Slot → Option String
  | .menu _ opcode _ => some opcode
  | _ => none

/-- Whether the kind of a block tells if it is that of a signature, a menu, or neither. -/
structure Catalog.TellsApart (catalog : Catalog) : Prop where
  signatures : ∀ s ∈ catalog.signatures, s.opcode ∉ ownOpcodes
  menus : ∀ s ∈ catalog.signatures, ∀ spec ∈ s.params, ∀ opcode ∈ spec.slot.menu?,
    opcode ∉ ownOpcodes ∧ ∀ s' ∈ catalog.signatures, s'.opcode ≠ opcode

/-- The robot tells blocks apart. -/
theorem Robot.tellsApart : Robot.catalog.TellsApart := ⟨by decide, by decide +kernel⟩

namespace LowerContext

variable {c : LowerContext} {calls : List (String × List Expr)} {p : Placed}

private theorem known_arg {args : List Expr} (hcalls : Expr.callsAll args ⊆ calls)
    (hsuit : c.SuitedAll args) : ∀ arg ∈ args, arg.calls ⊆ calls ∧ c.Suited arg := by
  induction args with
  | nil => exact forall_mem_nil _
  | cons arg args ih =>
    rw [SuitedAll] at hsuit
    obtain ⟨hfirst, hrest⟩ := append_subset.mp hcalls
    exact forall_mem_cons.mpr ⟨⟨hfirst, hsuit.1⟩, ih hrest hsuit.2⟩

private theorem known_stmt (hcalls : Stmt.callsAll body ⊆ calls) (hsuit : c.SuitedBody body) :
    ∀ stmt ∈ body, stmt.calls ⊆ calls ∧ c.SuitedStmt stmt := by
  induction body with
  | nil => exact forall_mem_nil _
  | cons stmt body ih =>
    rw [SuitedBody] at hsuit
    obtain ⟨hfirst, hrest⟩ := append_subset.mp hcalls
    exact forall_mem_cons.mpr ⟨⟨hfirst, hsuit.1⟩, ih hrest hsuit.2⟩

/-- What is known of expressions and statements whose calls are among some calls and whose arguments
suit their slots. -/
def Source.suited (c : LowerContext) (calls : List (String × List Expr)) : c.Source where
  expr e := e.calls ⊆ calls ∧ c.Suited e
  stmt stmt := stmt.calls ⊆ calls ∧ c.SuitedStmt stmt
  call callee s args :=
    (callee, args) ∈ calls ∧ s.params.length = args.length ∧ c.SuitsAll s.params args
  divisor _ := True
  group h := by rwa [Expr.calls, Suited] at h
  cast h := by rwa [Expr.calls, Suited] at h
  not h := by rwa [Expr.calls, Suited] at h
  binary h := by
    rw [Expr.calls, Suited, append_subset] at h
    exact ⟨⟨h.1.1, h.2.1⟩, ⟨h.1.2, h.2.2⟩, fun _ => trivial⟩
  arg h := by
    rw [Expr.calls, Suited, cons_subset] at h
    exact known_arg h.1.2 h.2.1
  expr_call h hget hs := by
    rw [Expr.calls, Suited, cons_subset] at h
    obtain ⟨_, _, _, hlen⟩ := exists_types_of_signature_ok hs
    exact ⟨h.1.1, hlen, h.2.2 _ _ hget hs⟩
  stmt_arg h := by
    rw [Stmt.calls, SuitedStmt, cons_subset] at h
    exact known_arg h.1.2 h.2.1
  stmt_call h hfun hevent hget hs := by
    rw [Stmt.calls, SuitedStmt, cons_subset] at h
    obtain ⟨_, _, _, hlen⟩ := exists_types_of_signature_ok hs
    exact ⟨h.1.1, hlen, h.2.2 hfun hevent _ _ hget hs⟩
  assign h := by
    rw [Stmt.calls, SuitedStmt] at h
    exact ⟨h, fun _ => trivial⟩
  branch h := by
    rw [Stmt.calls, SuitedStmt, append_subset, append_subset] at h
    exact ⟨⟨h.1.1, h.2.1⟩, known_stmt h.1.2.1 h.2.2.1, known_stmt h.1.2.2 h.2.2.2⟩
  loop {kind body span} h := by
    cases kind with
    | forever =>
      rw [Stmt.calls, SuitedStmt, append_subset] at h
      exact ⟨forall_mem_nil _, known_stmt h.1.2 h.2⟩
    | times count | «until» count =>
      rw [Stmt.calls, SuitedStmt, append_subset] at h
      exact ⟨forall_mem_singleton.mpr ⟨h.1.1, h.2.1⟩, known_stmt h.1.2 h.2.2⟩

/-- How blocks in bodies are assembled whose calls are among some calls and whose arguments suit
their slots. -/
abbrev Emits (c : LowerContext) (calls : List (String × List Expr)) :
    Ways := c.BodyWay (.suited c calls)

private theorem contents_emitted {face : Face} {steps : List Step}
    (hfrom : assembleFrom face steps = (b, none)) (h : ∀ step ∈ steps, step.Made (c.Emits calls)) :
    b.contents.All (Block.Stands (c.Emits calls) true) := by
  have hcont := all_assembleFrom (fun _ : true = true => congrArg Prod.snd hfrom)
    fun link content hmem hfault held hheld => (h _ hmem).all hheld hfault
  rwa [hfrom] at hcont

/-- How a block in a script is assembled, by its place after the first one: the first block of a
script and the prototype of a function are assembled in ways of their own. -/
inductive EmitsAt (c : LowerContext) (calls : List (String × List Expr)) :
    Nat → String → Bool → List Step → Prop where
  /-- The hat of an event of the catalog. -/
  | hat {name : String} {s : Signature} {param : Option Expr} {body : List Stmt}
      (hs : c.catalog.hat? name = some s) (hcall : ("@" ++ name, param.toList) ∈ calls)
      (hlen : (s.params.take 1).length = param.toList.length)
      (hsuits : c.SuitsAll (s.params.take 1) param.toList) :
      EmitsAt c calls 0 s.opcode false (s.fieldSteps ++
        c.placeAll ("@" ++ name) (s.params.take 1) param.toList ++ [c.bodyStep body])
  /-- The hat of an event of the program. -/
  | receiver {name : String} {event : CustomEvent} {body : List Stmt}
      (he : c.defs.events.get? name = some event) :
      EmitsAt c calls 0 "event_whenbroadcastreceived" false
        [.entity "BROADCAST_OPTION" name event.id, c.bodyStep body]
  /-- The definition of a function. -/
  | definition {steps : List Step} (hsteps : ∀ step ∈ steps, step.link? ≠ none) :
      EmitsAt c calls 0 "procedures_definition" false steps
  /-- The prototype of a function. -/
  | prototype {f : Function} {steps : List Step} (hf : c.function = some f)
      (hsteps : ∀ step ∈ steps, step.link? ≠ none) :
      EmitsAt c calls 1 "procedures_prototype" true
      (steps ++ [.mutation (LowerContext.prototype f)])
  /-- All else. -/
  | inner {offset : Nat} {opcode : String} {shadow : Bool} {steps : List Step}
      (h : c.Emits calls opcode shadow steps) : EmitsAt c calls offset opcode shadow steps

/-- Whether a block in a script is assembled in one of these ways; another may follow it. -/
def EmittedAt (c : LowerContext) (calls : List (String × List Expr)) (offset : Nat) (b : Block) :
    Prop :=
  ∃ opcode shadow steps core, c.EmitsAt calls offset opcode shadow steps ∧
    assembleFrom { opcode, shadow } steps = (core, none) ∧
    (b = core ∨ ∃ next, b = core.holding .next next)

private theorem emittedAt_of_stands (h : b.Stands (c.Emits calls) true) (offset : Nat) :
    c.EmittedAt calls offset b := by
  obtain ⟨shadow, core, ⟨opcode, steps, fault, hemits, hfrom, hfault⟩, hblock⟩ := h
  cases hfault rfl
  refine ⟨opcode, shadow, steps, core, .inner hemits, hfrom, hblock.imp_right ?_⟩
  rintro ⟨_, link, next, rfl, rfl | ⟨hincomplete, _⟩⟩
  · exact ⟨next, rfl⟩
  · cases hincomplete

private theorem emittedAt_of_placed (hfirst : c.EmittedAt calls 0 b)
    (hcont : b.contents.All (Block.Stands (c.Emits calls) true)) (hp : p ∈ b.placed top) :
    top ≤ p.id ∧ c.EmittedAt calls (p.id - top) p.block := by
  rcases mem_cons.mp hp with rfl | hp
  · rw [Nat.sub_self]
    exact ⟨le_refl _, hfirst⟩
  · have hid := mem_map_of_mem (f := Placed.id) hp
    rw [Contents.map_id_placed, mem_range'_1] at hid
    exact ⟨by omega, emittedAt_of_stands (hcont.of_mem_placed hp) _⟩

private theorem emittedAt_lowerEvent {kind : EventKind} {name : String} {param : Option Expr}
    {span : Span} (hok : c.lowerEvent kind name param body span = ⟨some b, none⟩)
    (hcalls : (Stmt.event kind name param body span endLine).calls ⊆ calls)
    (hsuit : c.SuitedStmt (.event kind name param body span endLine)) (hp : p ∈ b.placed top) :
    top ≤ p.id ∧ c.EmittedAt calls (p.id - top) p.block := by
  rw [SuitedStmt] at hsuit
  obtain ⟨hparam, hsuits, hbody⟩ := hsuit
  rw [Stmt.calls, cons_subset, append_subset] at hcalls
  obtain ⟨hcall, hparamCalls, hbodyCalls⟩ := hcalls
  have hbodyStep : (c.bodyStep body).Made (c.Emits calls) :=
    made_lowerBody (known_stmt hbodyCalls hbody)
  have hother (hkind : kind ≠ .custom) {s : Signature} (hs : c.catalog.hat? name = some s)
      (hassemble : assemble s.opcode (s.fieldSteps ++
        c.placeAll ("@" ++ name) (s.params.take 1) param.toList ++ [c.bodyStep body]) =
        ⟨some b, none⟩) :
      top ≤ p.id ∧ c.EmittedAt calls (p.id - top) p.block := by
    obtain ⟨hlen, hsuits⟩ := hsuits hkind s hs
    have hfrom := assembleFrom_of_assemble hassemble
    refine emittedAt_of_placed ⟨_, _, _, b, .hat hs hcall hlen hsuits, hfrom, .inl rfl⟩
      (contents_emitted hfrom ?_) hp
    rw [forall_mem_append, forall_mem_append, forall_mem_singleton]
    refine ⟨⟨s.made_fieldSteps, made_placeAll (Catalog.mem_signatures_of_hat? hs) _
      (take_subset 1 s.params) fun arg harg => ⟨?_, hparam arg (Option.mem_toList.mp harg)⟩⟩,
      hbodyStep⟩
    exact fun call hmem => hparamCalls (mem_flatMap.mpr ⟨arg, harg, hmem⟩)
  unfold lowerEvent at hok
  cases kind with
  | custom =>
    dsimp only at hok
    split at hok
    · cases hok
    · rename_i event he
      have hfrom := assembleFrom_of_assemble hok
      refine emittedAt_of_placed ⟨_, _, _, b, .receiver he, hfrom, .inl rfl⟩
        (contents_emitted hfrom ?_) hp
      rw [forall_mem_cons, forall_mem_singleton]
      exact ⟨trivial, hbodyStep⟩
  | builtin | startup =>
    dsimp only at hok
    split at hok
    · cases hok
    · rename_i s hs
      exact hother nofun hs hok

private theorem emittedAt_prototype {f : Function} (hf : c.function = some f)
    (hok : lowerPrototype f = ⟨some b, none⟩) :
    c.EmittedAt calls 1 b ∧ b.contents.All (Block.Stands (c.Emits calls) true) := by
  have hfrom := assembleFrom_of_assemble hok
  refine ⟨⟨_, _, _, b, .prototype hf fun step hstep => ?_, hfrom, .inl rfl⟩,
    contents_emitted hfrom ?_⟩
  · obtain ⟨param, _, rfl⟩ := mem_map.mp hstep
    exact Step.link?_input _ _
  · rw [forall_mem_append, forall_mem_map, forall_mem_singleton]
    refine ⟨fun param hparam => @Content.Made.single _ true _ ?_, trivial⟩
    exact Assembly.made_assemble (.param hf hparam) (forall_mem_singleton.mpr trivial)

private theorem emittedAt_lowerFunction {name : String} {params : List Parameter} {span : Span}
    (hok : c.lowerFunction name body span = ⟨some b, none⟩)
    (hcalls : (Stmt.funcDecl name params body span endLine).calls ⊆ calls)
    (hsuit : c.SuitedStmt (.funcDecl name params body span endLine)) (hp : p ∈ b.placed top) :
    top ≤ p.id ∧ (c.inside (.funcDecl name params body span endLine)).EmittedAt calls (p.id - top)
    p.block := by
  rw [SuitedStmt] at hsuit
  unfold lowerFunction at hok
  split at hok
  · cases hok
  rename_i f hf
  have hinside :
      c.inside (.funcDecl name params body span endLine) = { c with function := some f } := by
    rw [inside, hf]
  have hfun : (c.inside (.funcDecl name params body span endLine)).function = some f := hf
  have hsuit := hsuit f hf
  rw [← hinside] at hok hsuit
  generalize c.inside (.funcDecl name params body span endLine) = c at hok hfun hsuit ⊢
  obtain ⟨proto, hproto, _⟩ := lowerPrototype_eq f
  obtain ⟨hfirst, hshown⟩ :
      c.EmittedAt calls 1 proto ∧ proto.contents.All (Block.Stands (c.Emits calls) true) :=
    emittedAt_prototype hfun hproto
  have hfrom := assembleFrom_of_assemble hok
  rcases mem_cons.mp hp with rfl | hp
  · rw [Nat.sub_self]
    refine ⟨le_refl _, _, _, _, b, .definition ?_, hfrom, .inl rfl⟩
    rw [forall_mem_cons, forall_mem_singleton]
    exact ⟨Step.link?_input _ _, by rintro ⟨⟩⟩
  · have hid := mem_map_of_mem (f := Placed.id) hp
    rw [Contents.map_id_placed, mem_range'_1] at hid
    refine ⟨by omega, ?_⟩
    rw [hproto, Step.input, assembleFrom] at hfrom
    obtain ⟨rfl, hfault⟩ := Prod.mk.inj hfrom
    have hbody : (c.bodyStep body).Made (c.Emits calls) := made_lowerBody (known_stmt hcalls hsuit)
    have hrest := contents_emitted (Prod.ext rfl hfault) (forall_mem_singleton.mpr hbody)
    rw [Block.under, Contents.placed, cons_append, mem_cons, mem_append] at hp
    rcases hp with rfl | hp | hp
    · rw [Nat.add_sub_cancel_left]
      exact hfirst
    · exact emittedAt_of_stands (hshown.of_mem_placed hp) _
    · exact emittedAt_of_stands (hrest.of_mem_placed hp) _

private theorem emittedAt_lowerItem {item : Stmt} (hok : c.lowerItem item = ⟨some b, none⟩)
    (hcalls : item.calls ⊆ calls) (hsuit : c.SuitedStmt item) (hp : p ∈ b.placed top) :
    top ≤ p.id ∧ (c.inside item).EmittedAt calls (p.id - top) p.block := by
  cases item with
  | event kind name param body span endLine =>
    exact emittedAt_lowerEvent hok hcalls hsuit hp
  | funcDecl name params body span endLine =>
    exact emittedAt_lowerFunction hok hcalls hsuit hp
  | _ => cases hok

end LowerContext

/-- Members side by side. -/
theorem exists_zip_of_forall₂ {α β : Type} {R : α → β → Prop} {l : List α} {m : List β}
    (h : List.Forall₂ R l m) {b : β} (hb : b ∈ m) : ∃ a, (a, b) ∈ l.zip m ∧ R a b := by
  induction h with
  | nil => cases hb
  | cons hfirst _ ih =>
    rcases mem_cons.mp hb with rfl | hb
    · exact ⟨_, mem_cons_self, hfirst⟩
    · obtain ⟨a, ha, hrel⟩ := ih hb
      exact ⟨a, mem_cons_of_mem _ ha, hrel⟩

namespace Graph

variable {scripts : List Block} {p : Placed}

private theorem eq_of_mem_placedFrom {q : Placed} (hp : p ∈ placedFrom 0 scripts)
    (hq : q ∈ placedFrom 0 scripts) (hid : p.id = q.id) : p = q := by
  obtain ⟨i, hi⟩ := mem_iff_getElem?.mp hp
  obtain ⟨j, hj⟩ := mem_iff_getElem?.mp hq
  rw [← id_of_getElem? hi, hid, id_of_getElem? hj, hj] at hi
  exact (Option.some.inj hi).symm

private theorem exists_script (hp : p ∈ placedFrom start scripts) :
    ∃ top b, ⟨top, none, b⟩ ∈ placedFrom start scripts ∧ p ∈ b.placed top ∧
      b.placed top ⊆ placedFrom start scripts := by
  induction scripts generalizing start with
  | nil => cases hp
  | cons script rest ih =>
    rw [placedFrom, mem_append] at hp
    rcases hp with hp | hp
    · exact ⟨start, script, mem_append_left _ mem_cons_self, hp, subset_append_left _ _⟩
    · obtain ⟨top, b, hb, hp, hsub⟩ := ih hp
      exact ⟨top, b, mem_append_right _ hb, hp, subset_append_of_subset_right _ hsub⟩

private theorem leads_of_mem_placed {contents : Contents} {parent : Nat}
    (hsub : contents.placed parent start ⊆ placedFrom 0 scripts)
    (hp : p ∈ contents.placed parent start) : (ofScripts scripts).Leads p.id parent := by
  induction contents generalizing parent start with
  | empty => cases hp
  | literal input value rest ih => exact ih hsub hp
  | block link face inner rest ihInner ihRest =>
    rw [Contents.placed, cons_append, cons_subset, append_subset] at hsub
    rw [Contents.placed, cons_append, mem_cons, mem_append] at hp
    have hpar : (ofScripts scripts).parent? start = some parent :=
      parent?_ofScripts_iff.mpr ⟨_, hsub.1, rfl, link, rfl⟩
    rcases hp with rfl | hp | hp
    · exact .single hpar
    · exact (ihInner hsub.2.1 hp).tail hpar
    · exact ihRest hsub.2.2 hp

private theorem leads_of_mem_script (hsub : b.placed top ⊆ placedFrom 0 scripts)
    (hp : p ∈ b.placed top) : (ofScripts scripts).Leads p.id top := by
  rcases mem_cons.mp hp with rfl | hp
  · exact .refl
  · exact leads_of_mem_placed (cons_subset.mp hsub).2 hp

/-- A block shows its face. -/
theorem StandsAt.face_eq (h : StandsAt (placedFrom 0 scripts) b id)
    (hnode : (ofScripts scripts).nodes[id]? = some node) : node.face = b.face := by
  obtain ⟨found, hfound, hface, _⟩ := h.shows
  cases hnode.symm.trans hfound
  exact hface

section Items

variable {c : LowerContext} {program : Program} (hlow : c.Succeeds program)
  (hnode : (ofScripts (program.blocks c)).nodes[id]? = some node)

include hlow hnode

/-- Every block of a program that is lowered without a fault is in the script of one of the
items. -/
theorem exists_item : ∃ item top b p,
    (item, top) ∈ program.scripts.zip (ofScripts (program.blocks c)).tops ∧
      c.lowerItem item = ⟨some b, none⟩ ∧ p ∈ b.placed top ∧
      p ∈ placedFrom 0 (program.blocks c) ∧ p.id = id ∧ p.node = node ∧
      (ofScripts (program.blocks c)).Leads id top := by
  obtain ⟨p, hp, hid, hpnode⟩ := getElem?_ofScripts_iff.mp hnode
  obtain ⟨top, b, hb, hscript, hsub⟩ := exists_script hp
  have htop : top ∈ (ofScripts (program.blocks c)).tops := by
    rw [tops_ofScripts]
    exact mem_map.mpr ⟨_, mem_filter.mpr ⟨hb, rfl⟩, rfl⟩
  obtain ⟨item, hitem, b', hok, hb'⟩ := exists_zip_of_forall₂ (forall₂_scripts_tops hlow) htop
  cases eq_of_mem_placedFrom hb hb' rfl
  exact ⟨item, top, b, p, hitem, hok, hscript, hp, hid, hpnode,
    hid ▸ leads_of_mem_script hsub hscript⟩

/-- Every block of a program that is lowered without a fault is assembled in one of the ways, in the
script of one of the items. -/
theorem exists_emitsAt (hsuit : ∀ item ∈ program.statements, c.SuitedStmt item) :
    ∃ item top, (item, top) ∈ program.scripts.zip (ofScripts (program.blocks c)).tops ∧
      (ofScripts (program.blocks c)).Leads id top ∧ top ≤ id ∧
      ∃ shadow steps core,
        (c.inside item).EmitsAt program.calls (id - top) node.face.opcode shadow steps ∧
        node.face = steps.foldl Step.onFace { opcode := node.face.opcode, shadow } ∧
        assembleFrom { opcode := node.face.opcode, shadow } steps = (core, none) ∧
        StandsAt (placedFrom 0 (program.blocks c)) core id := by
  obtain ⟨item, top, b, p, hitem, hok, hscript, hp, rfl, _, hleads⟩ := exists_item hlow hnode
  have hmem : item ∈ program.statements := mem_of_mem_filter (of_mem_zip hitem).1
  obtain ⟨hle, opcode, shadow, steps, core, hemits, hfrom, hblock⟩ :=
    LowerContext.emittedAt_lowerItem hok (Stmt.calls_subset_callsAll hmem) (hsuit item hmem) hscript
  have hstands : StandsAt (placedFrom 0 (program.blocks c)) core p.id := ⟨p, hp, rfl, hblock⟩
  have hface := (hstands.face_eq hnode).trans (face_of_assembleFrom hfrom)
  obtain rfl : node.face.opcode = opcode := by
    rw [hface]
    exact (foldl_onFace { opcode, shadow } steps).1
  exact ⟨item, top, hitem, hleads, hle, shadow, steps, core, hemits, hface, hfrom, hstands⟩

end Items

end Graph

end BlockScript
