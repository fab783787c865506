import BlockScript.Proofs.Assembled

/-!
# Scripts of programs

The blocks of a body form a chain in which each complete block is followed by the next one, and
every handler and every function becomes one script. Where lowering has no fault, the graph of a
program is a forest, and its top blocks stand for the handlers and functions of the program in their
order.
-/

namespace BlockScript

variable {opcode : String} {span : Span} {steps : List Step} {α β γ : Type}

open List Step

/-- Other inputs are left. -/
theorem Contents.get?_inputsFrom_of_not_mem {contents : Contents} {name : String}
    (hname : .input name ∉ contents.links) (start : Nat) (inputs : Table String Input) :
    (contents.inputsFrom start inputs).get? name = inputs.get? name := by
  induction contents generalizing start inputs with
  | empty => rfl
  | literal input value rest ih =>
    rw [links, mem_cons, not_or] at hname
    obtain ⟨hne, hrest⟩ := hname
    have hne : input ≠ name := fun h => hne (congrArg Link.input h.symm)
    rw [inputsFrom, ih hrest, Table.get?_insert, if_neg hne]
  | block link face inner rest _ ih =>
    rw [links, mem_cons, not_or] at hname
    obtain ⟨hne, hrest⟩ := hname
    cases link with
    | input input =>
      have hne : input ≠ name := fun h => hne (congrArg Link.input h.symm)
      rw [inputsFrom, ih hrest, Table.get?_insert, if_neg hne]
    | next => exact ih hrest _ _
    | loose => exact ih hrest _ _

private theorem Chain.Linked.bodyStep {chain : Chain} (h : chain.Linked) :
    (attach .next chain.content).Linked := by
  refine ⟨nofun, fun b hb => ?_⟩
  obtain ⟨hfirst, hfault⟩ := Assembly.mk.inj (Content.assembly.inj hb)
  obtain ⟨_, hlinked, hshadow⟩ := h b hfirst hfault
  exact ⟨hlinked, fun _ => hshadow⟩

namespace LowerContext

variable {c : LowerContext}

private theorem script_linked (hapart : c.InputsApart) (hsteps : StepsApart steps)
    (hlink : ∀ step ∈ steps, step.Linked) (body : List Stmt) {b : Block}
    (hok : assemble opcode (steps ++ [c.bodyStep body]) = ⟨some b, none⟩) : b.Linked := by
  have hbody : (c.bodyStep body).Linked := (lowerBody_linked hapart body).bodyStep
  have hcont := assembleFrom_linked (assembleFrom_of_assemble hok)
    (forall_mem_append.mpr ⟨hlink, forall_mem_singleton.mpr hbody⟩)
    (by
      rw [filterMap_append]
      exact hsteps.nodup.append (nodup_singleton _) (disjoint_singleton.mpr hsteps.next_not_mem))
  exact ⟨hcont, fun hb => absurd ((face_of_assemble hok).2.symm.trans hb) nofun⟩

end LowerContext

/-- What begins a script: a handler for an event, or the declaration of a function. -/
inductive ScriptHead where
  | event (kind : EventKind) (name : String)
  | function (name : String)
  deriving DecidableEq

/-- What an item begins, if it is no declaration of a variable or constant. -/
def Stmt.scriptHead? : Stmt → Option ScriptHead
  | .event kind name _ _ _ _ => some (.event kind name)
  | .funcDecl name _ _ _ _ => some (.function name)
  | _ => none

/-- What the scripts of a program begin with, in order. -/
def Program.scriptHeads (program : Program) : List ScriptHead :=
  program.statements.filterMap Stmt.scriptHead?

/-- Whether a block stands for the beginning of a script: the hat of its event, or the definition of
its function, with the prototype in its input. -/
def Block.Begins (catalog : Catalog) (defs : Definitions) (b : Block) : ScriptHead → Prop
  | .event .custom name => ∃ event, defs.events.get? name = some event ∧
      b.face.opcode = "event_whenbroadcastreceived" ∧
      b.face.fields.get? "BROADCAST_OPTION" = some { value := name, entity := some event.id }
  | .event _ name => ∃ signature, catalog.hat? name = some signature ∧
      b.face.opcode = signature.opcode
  | .function name => ∃ f, defs.functions.get? name = some f ∧
      b.face.opcode = "procedures_definition" ∧
      ∃ face contents rest, b.contents = .block (.input "custom_block") face contents rest ∧
        face.opcode = "procedures_prototype" ∧
        face.mutation = some (LowerContext.prototype f)

namespace LowerContext

variable {c : LowerContext} {name : String} {body : List Stmt} (f : Function)

/-- A block without a fault. -/
theorem exists_of_assemble {shadow : Bool} (hfault : (assemble opcode steps shadow).fault = none) :
    ∃ b, assemble opcode steps shadow = ⟨some b, none⟩ :=
  ⟨(assembleFrom { opcode, shadow } steps).1, by rw [← hfault]; rfl⟩

private theorem lowerHat_begins (hapart : c.InputsApart) {param : Option Expr}
    {signature : Signature} (hhat : c.catalog.hat? name = some signature)
    {a : Assembly} (ha : a = assemble signature.opcode
      (signature.fieldSteps ++ c.placeAll ("@" ++ name) (signature.params.take 1) param.toList ++
        [c.bodyStep body])) (hfault : a.fault = none) :
    ∃ b, a.block = some b ∧ b.Linked ∧ b.face.opcode = signature.opcode := by
  subst ha
  obtain ⟨b, hb⟩ := exists_of_assemble hfault
  have hsteps := signatureSteps_apart hapart (Catalog.mem_signatures_of_hat? hhat) ("@" ++ name)
    (take_sublist 1 signature.params) param.toList
  have hmade : ∀ step ∈ signature.fieldSteps ++ c.placeAll ("@" ++ name)
      (signature.params.take 1) param.toList,
      step.Made (c.BodyWay (.any c)) := forall_mem_append.mpr ⟨signature.made_fieldSteps,
    made_placeAll (Catalog.mem_signatures_of_hat? hhat) _ (take_subset 1 _) fun _ _ => trivial⟩
  exact ⟨b, congrArg Assembly.block hb, script_linked hapart hsteps
    (hsteps.linked_steps fun _ _ hmem => (hmade _ hmem).linked (BodyWay.apart hapart)) body hb,
    (face_of_assemble hb).1⟩

private theorem lowerEvent_begins (hapart : c.InputsApart) {kind : EventKind} {param : Option Expr}
    (hfault : (c.lowerEvent kind name param body span).fault = none) :
    ∃ b, (c.lowerEvent kind name param body span).block = some b ∧ b.Linked ∧
      b.Begins c.catalog c.defs (.event kind name) := by
  unfold lowerEvent at hfault ⊢
  cases kind with
  | custom =>
    cases hget : c.defs.events.get? name with
    | none =>
      rw [hget] at hfault
      cases hfault
    | some event =>
      rw [hget] at hfault
      obtain ⟨b, hb⟩ := exists_of_assemble hfault
      have hoption : ∀ step ∈ [entity "BROADCAST_OPTION" name event.id], step.link? = none := by
        simp [entity, link?]
      refine ⟨b, congrArg Assembly.block hb, script_linked hapart (.of_no_links hoption)
        (forall_mem_singleton.mpr trivial) body hb, event, hget, (face_of_assemble hb).1, ?_⟩
      rw [face_of_assembleFrom (assembleFrom_of_assemble hb)]
      rfl
  | builtin | startup =>
    cases hhat : c.catalog.hat? name with
    | none =>
      rw [hhat] at hfault
      cases hfault
    | some signature =>
      rw [hhat] at hfault
      obtain ⟨b, hb, hlink, hcode⟩ := lowerHat_begins hapart hhat rfl hfault
      exact ⟨b, hb, hlink, signature, hhat, hcode⟩

/-- The step that shows a parameter in a prototype. -/
private def reporterStep (param : FunctionParam) : Step :=
  .input param.id.text
    (.assembly (assemble param.type.reporterOpcode [.text "VALUE" param.name] true))

private theorem assembleFrom_reporters (face : Face) (params : List FunctionParam) (m : Mutation) :
    ∃ contents, assembleFrom face (params.map reporterStep ++ [.mutation m]) =
      (⟨{ face with mutation := some m }, contents⟩, none) := by
  induction params with
  | nil => exact ⟨.empty, rfl⟩
  | cons param params ih =>
    obtain ⟨contents, hcont⟩ := ih
    rw [map_cons, cons_append]
    exact ⟨_, by rw [reporterStep, input, assemble, text, assembleFrom, assembleFrom,
      assembleFrom, hcont]⟩

private theorem lowerPrototype_steps : lowerPrototype f =
    assemble "procedures_prototype" (f.params.map reporterStep ++ [.mutation (prototype f)]) true :=
  rfl

/-- Prototypes have no fault. -/
theorem lowerPrototype_eq :
    ∃ b, lowerPrototype f = ⟨some b, none⟩ ∧ b.face.opcode = "procedures_prototype" ∧
      b.face.mutation = some (prototype f) := by
  obtain ⟨contents, hcont⟩ := assembleFrom_reporters
    { opcode := "procedures_prototype", shadow := true } f.params (prototype f)
  refine ⟨⟨{ opcode := "procedures_prototype", shadow := true, mutation := some (prototype f) },
    contents⟩, ?_, rfl, rfl⟩
  rw [lowerPrototype_steps, assemble, hcont]

private theorem prototype_linked {f : Function}
    (hparams : (f.params.map fun param => param.id.text).Nodup) :
    (Content.assembly (lowerPrototype f)).Linked := by
  have hlinks : (f.params.map reporterStep ++ [Step.mutation (prototype f)]).filterMap link? =
      (f.params.map fun param => param.id.text).map .input := by
    rw [filterMap_append, filterMap_map, map_map, ← filterMap_eq_map]
    exact append_nil _
  intro b hb
  refine ((StepsApart.of_sublist hparams (hlinks ▸ .refl _)).assemble ?_
    (Content.assembly.inj hb)).1
  rw [forall_mem_append, forall_mem_map, forall_mem_singleton]
  refine ⟨fun param _ => Content.Linked.input (fun b hb => ?_) _, trivial⟩
  have hrep : StepsApart [.text "VALUE" param.name] := .of_no_links (forall_mem_singleton.mpr rfl)
  exact (hrep.assemble (forall_mem_singleton.mpr trivial) (Content.assembly.inj hb)).1

private theorem lowerFunction_begins (hapart : c.InputsApart)
    (hfault : (c.lowerFunction name body span).fault = none) :
    ∃ b, (c.lowerFunction name body span).block = some b ∧ b.Linked ∧
      b.Begins c.catalog c.defs (.function name) := by
  unfold lowerFunction at hfault ⊢
  cases hget : c.defs.functions.get? name with
  | none =>
    rw [hget] at hfault
    cases hfault
  | some f =>
    rw [hget] at hfault
    have hinner : InputsApart { c with function := some f } := ⟨hapart.signatures, hapart.functions⟩
    obtain ⟨b, hb⟩ := exists_of_assemble hfault
    have hproto := prototype_linked (hapart.functions name f hget)
    refine ⟨b, congrArg Assembly.block hb, script_linked hinner (.input "custom_block" _)
      (forall_mem_singleton.mpr (hproto.input _)) body hb, f, hget, (face_of_assemble hb).1, ?_⟩
    obtain ⟨p, hp, hcode, hmut⟩ := lowerPrototype_eq f
    have hb := assembleFrom_of_assemble hb
    rw [hp, input, assembleFrom] at hb
    obtain ⟨rfl, _⟩ := Prod.mk.inj hb
    exact ⟨p.face, p.contents, _, rfl, hcode, hmut⟩

/-- Without a fault, an item has a script just if it begins one. -/
theorem lowerItem_begins (hapart : c.InputsApart) {stmt : Stmt}
    (hfault : (c.lowerItem stmt).fault = none) :
    Option.Rel (fun head b => b.Linked ∧ b.Begins c.catalog c.defs head) stmt.scriptHead?
      (c.lowerItem stmt).block := by
  cases stmt with
  | event kind name param body span endLine =>
    obtain ⟨b, hb, hbeg⟩ := lowerEvent_begins hapart hfault
    rw [lowerItem, hb]
    exact .some hbeg
  | funcDecl name params body span endLine =>
    obtain ⟨b, hb, hbeg⟩ := lowerFunction_begins hapart hfault
    rw [lowerItem, hb]
    exact .some hbeg
  | _ => exact .none

end LowerContext

/-- Whether the block with a number has no parent and stands for the beginning of a script: the hat
of its event, or the definition of its function with the prototype in its input. -/
def Graph.Begins (catalog : Catalog) (defs : Definitions) (g : Graph) (head : ScriptHead)
    (top : Nat) : Prop :=
  ∃ node, g.nodes[top]? = some node ∧ node.parent = none ∧
    match head with
    | .event .custom name => ∃ event, defs.events.get? name = some event ∧
        node.face.opcode = "event_whenbroadcastreceived" ∧
        node.face.fields.get? "BROADCAST_OPTION" = some { value := name, entity := some event.id }
    | .event _ name => ∃ signature, catalog.hat? name = some signature ∧
        node.face.opcode = signature.opcode
    | .function name => ∃ f, defs.functions.get? name = some f ∧
        node.face.opcode = "procedures_definition" ∧
        ∃ id prototype, node.inputs.get? "custom_block" = some (.block id) ∧
          g.nodes[id]? = some prototype ∧ prototype.face.opcode = "procedures_prototype" ∧
          prototype.face.mutation = some (LowerContext.prototype f)

/-- A script begins with the block that stands for its beginning. -/
theorem Graph.begins_of_placed {catalog : Catalog} {defs : Definitions} {scripts : List Block}
    {top : Nat} {b : Block} (hplaced : ⟨top, none, b⟩ ∈ placedFrom 0 scripts) (hlink : b.Linked)
    {head : ScriptHead} (hbeg : b.Begins catalog defs head) :
    (ofScripts scripts).Begins catalog defs head top := by
  refine ⟨Placed.node ⟨top, none, b⟩, getElem?_ofScripts_iff.mpr ⟨_, hplaced, rfl, rfl⟩, rfl, ?_⟩
  cases head with
  | event kind name => cases kind <;> exact hbeg
  | function name =>
    obtain ⟨f, hget, hcode, face, contents, rest, hcont, hproto, hmut⟩ := hbeg
    let prototype : Placed := ⟨top + 1, some (top, .input "custom_block"), ⟨face, contents⟩⟩
    have hchild : prototype ∈ Placed.children ⟨top, none, b⟩ := by
      rw [Placed.children, hcont]
      exact mem_cons_self
    have hmem := mem_of_mem_children hplaced hchild
    refine ⟨f, hget, hcode, top + 1, prototype.node, ?_,
      getElem?_ofScripts_iff.mpr ⟨_, hmem, rfl, rfl⟩, hproto, hmut⟩
    have hfresh : .input "custom_block" ∉ rest.links := by
      have := hlink.1
      rw [hcont] at this
      exact this.2.1
    change (b.contents.inputsFrom (top + 1) .empty).get? "custom_block" = _
    rw [hcont, Contents.inputsFrom, Contents.get?_inputsFrom_of_not_mem hfresh]
    rfl

/-- What is picked is related. -/
theorem forall₂_filterMap {R : β → γ → Prop} {f : α → Option β}
    {g : α → Option γ} {l : List α} (h : ∀ a ∈ l, Option.Rel R (f a) (g a)) :
    List.Forall₂ R (l.filterMap f) (l.filterMap g) := by
  induction l with
  | nil => exact .nil
  | cons a l ih =>
    have hrest := ih fun a ha => h a (mem_cons_of_mem _ ha)
    have hhead := h a mem_cons_self
    rw [filterMap_cons, filterMap_cons]
    generalize f a = first, g a = second at hhead
    cases hhead with
    | none => exact hrest
    | some hR => exact .cons hR hrest

/-- Relations after each other. -/
theorem forall₂_trans {R : α → β → Prop} {S : β → γ → Prop}
    {T : α → γ → Prop} (hT : ∀ a b c, R a b → S b c → T a c) {l : List α} {m : List β} {n : List γ}
    (hR : List.Forall₂ R l m) (hS : List.Forall₂ S m n) : List.Forall₂ T l n := by
  induction hR generalizing n with
  | nil =>
    cases hS
    exact .nil
  | cons hhead _ ih =>
    cases hS with
    | cons hhead' htail => exact .cons (hT _ _ _ hhead hhead') (ih htail)

/-- A program without lowering errors becomes a forest, whose top blocks stand for the handlers and
functions of the program in their order. -/
theorem Program.lower_isForest {catalog : Catalog} {types : TypeTable} {defs : Definitions}
    {program : Program} (hapart : LowerContext.InputsApart { defs, types, catalog })
    (herrs : (program.lower catalog types defs).errors = []) :
    (program.lower catalog types defs).graph.IsForest ∧
      List.Forall₂ ((program.lower catalog types defs).graph.Begins catalog defs)
        program.scriptHeads (program.lower catalog types defs).graph.tops := by
  let c : LowerContext := { defs, types, catalog }
  have hrel : List.Forall₂ (fun head b => b.Linked ∧ b.Begins catalog defs head)
      program.scriptHeads ((program.statements.map c.lowerItem).filterMap (·.block)) := by
    rw [filterMap_map]
    refine forall₂_filterMap fun stmt hstmt => LowerContext.lowerItem_begins hapart ?_
    exact filterMap_eq_nil_iff.mp herrs _ (mem_map_of_mem hstmt)
  constructor
  · exact Graph.isForest_ofScripts ((forall₂_and_left ..).mp hrel.flip).1
  · refine forall₂_trans (fun head b top hhead hplaced => ?_) hrel Graph.forall₂_placed_tops
    exact Graph.begins_of_placed hplaced hhead.1 hhead.2

end BlockScript
