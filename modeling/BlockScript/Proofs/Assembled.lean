import BlockScript.Evaluation
import BlockScript.Proofs.Linking
import BlockScript.Proofs.Parts

/-!
# What blocks are assembled of

Lowering assembles every block in one of a few ways: an operation, a part of the control flow, a
variable, a list or a parameter, an entry of the catalog, a menu, or a call of a function. Each way
is said by the kind of the block and its steps, and what the steps attach is made in the same ways.
A fault ends the assembly; what was there before it stays, and so does the block around it, as far
as it got. What is known of expressions and statements is handed on to the blocks that they become.
-/

namespace BlockScript

open List

variable {steps : List Step} {name opcode : String} {s : Signature} {args : List Expr} {span : Span}
  {start : Nat}

/-! ### Blocks in contents -/

section Blocks

variable {P : Block → Prop}

/-- Whether something is true of all blocks in contents. -/
def Contents.All (P : Block → Prop) : Contents → Prop
  | .empty => True
  | .literal _ _ rest => rest.All P
  | .block _ face contents rest => P ⟨face, contents⟩ ∧ contents.All P ∧ rest.All P

/-- Whether something is true of a block and of all blocks in it. -/
def Block.All (P : Block → Prop) (b : Block) : Prop := P b ∧ b.contents.All P

private theorem Contents.All.append {contents more : Contents} (h : contents.All P)
    (hmore : more.All P) : (contents.append more).All P := by
  induction contents with
  | empty => exact hmore
  | literal input value rest ih => exact ih h
  | block link face inner rest _ ih => exact ⟨h.1, h.2.1, ih h.2.2⟩

/-- Placed blocks are among all. -/
theorem Contents.All.of_mem_placed {contents : Contents} (h : contents.All P) {parent : Nat}
    {q : Placed} (hq : q ∈ contents.placed parent start) : P q.block := by
  induction contents generalizing parent start with
  | empty => cases hq
  | literal input value rest ih => exact ih h hq
  | block link face inner rest ihInner ihRest =>
    obtain ⟨hblock, hinner, hrest⟩ := h
    rw [placed, cons_append, mem_cons, mem_append] at hq
    rcases hq with rfl | hq | hq
    · exact hblock
    · exact ihInner hinner hq
    · exact ihRest hrest hq

/-- The block of a content, complete or not. -/
def Content.block? : Content → Option Block
  | .literal _ => none
  | .assembly a => a.block

private theorem Chain.Linked.content {chain : Chain} (h : chain.Linked) : chain.content.Linked := by
  intro b hb
  obtain ⟨hfirst, hfault⟩ := Assembly.mk.inj (Content.assembly.inj hb)
  exact (h b hfirst hfault).2.1

/-- What is true of all blocks that steps attach is true of all blocks in the block they assemble,
as far as it gets. If it is complete, this is needed of complete blocks only. -/
theorem all_assembleFrom {complete : Bool} {face : Face}
    (hfault : complete → (assembleFrom face steps).2 = none)
    (h : ∀ link content, .attach link content ∈ steps → (complete → content.fault? = none) →
      ∀ b, content.block? = some b → b.All P) : (assembleFrom face steps).1.contents.All P := by
  have hrest {step : Step} {rest : List Step}
      (h : ∀ link content, .attach link content ∈ step :: rest →
      (complete = true → content.fault? = none) → ∀ b, content.block? = some b → b.All P)
      (link : Link) (content : Content) (hmem : .attach link content ∈ rest) :=
      h link content (mem_cons_of_mem _ hmem)
  fun_induction assembleFrom face steps with
  | case1 | case4 | case9 => trivial
  | case2 face name field rest ih | case3 face m rest ih | case7 face link rest ih =>
    exact ih hfault (hrest h)
  | case5 face link value rest b fault heq ih =>
    rw [heq] at ih
    have hcont := ih hfault (hrest h)
    cases link <;> exact hcont
  | case6 face link held rest b fault heq ih =>
    rw [heq] at ih
    obtain ⟨hheld, hinner⟩ := h link _ mem_cons_self (fun _ => rfl) held rfl
    exact ⟨hheld, hinner, ih hfault (hrest h)⟩
  | case8 face link held d rest =>
    obtain ⟨hheld, hinner⟩ := h link _ mem_cons_self hfault held rfl
    exact ⟨hheld, hinner, trivial⟩

end Blocks

/-! ### What is made -/

/-- Whether a diagnostic, if there is one, comes from lowering. -/
def FromLowering (fault? : Option Diagnostic) : Prop :=
  ∀ d ∈ fault?, ∃ fault span, d = .lowering fault span

private theorem FromLowering.none :
    FromLowering none := fun d hd => absurd hd (Option.not_mem_none d)

private theorem FromLowering.fault (fault : LoweringFault) (span : Span) :
    FromLowering (some (.lowering fault span)) :=
  fun _ hd => ⟨fault, span, (Option.mem_some.mp hd).symm⟩

/-- The chain of several blocks, each of which may stop it. -/
def Chain.ofParts : List (Assembly × Bool) → Chain
  | [] => {}
  | (a, stops) :: rest => .ofAssembly a stops (ofParts rest)

/-- Ways to assemble blocks: of which kind they are, whether they are shadows, and by which
steps. -/
abbrev Ways := String → Bool → List Step → Prop

mutual

/-- Whether an assembly has no block yet or is made in some ways, and so is all that its steps
attach. -/
inductive Assembly.Made (W : Ways) : Bool → Assembly → Prop where
  | nothing {shadow : Bool} : Assembly.Made W shadow {}
  | failed {shadow : Bool} {d : Diagnostic} (hd : FromLowering (some d)) :
      Assembly.Made W shadow { fault := some d }
  | block {opcode : String} {shadow : Bool} {steps : List Step} (hway : W opcode shadow steps)
      (hfaults : ∀ d, .fault d ∈ steps → FromLowering (some d))
      (hsteps : ∀ link content, .attach link content ∈ steps → Content.Made W content) :
      Assembly.Made W shadow (assemble opcode steps shadow)

/-- Whether a content is a value, or a block or a body that is made in some ways. -/
inductive Content.Made (W : Ways) : Content → Prop where
  | literal (value : Value) : Content.Made W (.literal value)
  | single {shadow : Bool} {a : Assembly} (h : Assembly.Made W shadow a) :
    Content.Made W (.assembly a)
  | body {parts : List (Assembly × Bool)} (h : ∀ part ∈ parts, Assembly.Made W false part.1) :
      Content.Made W (Chain.ofParts parts).content

end

/-- Whether a block is assembled in some way, and is complete if that is asked for. Nothing follows
it yet. -/
def Block.MadeBy (W : Ways) (complete shadow : Bool) (b : Block) : Prop :=
  ∃ opcode steps fault, W opcode shadow steps ∧ assembleFrom { opcode, shadow } steps = (b, fault) ∧
    (complete = true → fault = none)

/-- Whether a block is assembled in some way. If it is no shadow another one may follow it; where
blocks need not be complete, the other one may also hang loosely from it. -/
def Block.Stands (W : Ways) (complete : Bool) (b : Block) : Prop :=
  ∃ shadow core, core.MadeBy W complete shadow ∧ (b = core ∨ shadow = false ∧ ∃ link next,
    b = core.holding link next ∧ (link = .next ∨ complete = false ∧ link = .loose))

variable {W : Ways} {complete shadow : Bool} {parts : List (Assembly × Bool)}

private theorem Block.MadeBy.stands {b : Block} (h : b.MadeBy W complete shadow) :
    b.Stands W complete :=
  ⟨shadow, b, h, .inl rfl⟩

private theorem Chain.all_ofParts (h : ∀ part ∈ parts, ∀ b, part.1.block = some b →
      (complete → part.1.fault = none) →
      b.MadeBy W complete false ∧ b.contents.All (Block.Stands W complete)) {b : Block}
    (hb : (ofParts parts).first = some b) (hfault : complete → (ofParts parts).fault = none) :
    b.All (Block.Stands W complete) ∧ (complete → (ofParts parts).complete) := by
  induction parts generalizing b with
  | nil => cases hb
  | cons part rest ih =>
    obtain ⟨⟨block, fault⟩, stops⟩ := part
    obtain ⟨hpart, hrest⟩ := forall_mem_cons.mp h
    cases fault with
    | some d =>
      have hincomplete : complete ≠ true := fun hcomp => absurd (hfault hcomp) nofun
      obtain ⟨hmade, hcont⟩ := hpart b hb fun hcomp => absurd hcomp hincomplete
      exact ⟨⟨hmade.stands, hcont⟩, fun hcomp => absurd hcomp hincomplete⟩
    | none =>
      cases block with
      | none => exact ih hrest hb hfault
      | some first =>
        obtain ⟨hmade, hcont⟩ := hpart first rfl fun _ => rfl
        rw [ofParts, ofAssembly] at hb hfault ⊢
        cases stops with
        | true =>
          cases hb
          exact ⟨⟨hmade.stands, hcont⟩, fun _ => rfl⟩
        | false =>
          simp only [Bool.false_eq_true, if_false, cons] at hb hfault ⊢
          split at hb
          · cases hb
            exact ⟨⟨hmade.stands, hcont⟩, fun _ => rfl⟩
          · rename_i next hnext
            rw [hnext] at hfault
            cases hb
            obtain ⟨⟨hstands, hmore⟩, hwhole⟩ := ih hrest hnext hfault
            refine ⟨⟨⟨false, first, hmade, .inr ⟨rfl, _, next, rfl, ?_⟩⟩,
              hcont.append ⟨hstands, hmore, trivial⟩⟩, fun _ => rfl⟩
            cases hcomp : (ofParts rest).complete with
            | true => exact .inl rfl
            | false => exact .inr ⟨by simpa [hcomp] using hwhole, rfl⟩

mutual

private theorem Assembly.Made.all :
    ∀ {shadow : Bool} {a : Assembly} {b : Block}, a.Made W shadow → a.block = some b →
      (complete → a.fault = none) → b.MadeBy W complete shadow ∧
      b.contents.All (Block.Stands W complete)
  | _, _, _, .nothing, hb, _ | _, _, _, .failed _, hb, _ => by cases hb
  | _, _, _, .block hway _ hsteps, hb, hfault => by
    cases hb
    refine ⟨⟨_, _, _, hway, rfl, hfault⟩, all_assembleFrom hfault
      fun link content hmem hfault b hb => ?_⟩
    exact (hsteps link content hmem).all hb hfault

/-- All blocks in it are made. -/
theorem Content.Made.all :
    ∀ {content : Content} {b : Block}, content.Made W → content.block? = some b →
      (complete → content.fault? = none) → b.All (Block.Stands W complete)
  | _, _, .literal _, hb, _ => by cases hb
  | _, _, .single h, hb, hfault => by
    obtain ⟨hmade, hcont⟩ := h.all hb hfault
    exact ⟨hmade.stands, hcont⟩
  | _, _, .body h, hb, hfault =>
    (Chain.all_ofParts (fun part hpart _ hb hfault => (h part hpart).all hb hfault) hb hfault).1

end

mutual

private theorem Assembly.Made.mono {W' : Ways}
    (hW : ∀ {opcode shadow steps}, W opcode shadow steps → W' opcode shadow steps) :
    ∀ {shadow : Bool} {a : Assembly}, a.Made W shadow → a.Made W' shadow
  | _, _, .nothing => .nothing
  | _, _, .failed hd => .failed hd
  | _, _, .block hway hfaults hsteps =>
    .block (hW hway) hfaults fun link content hmem => (hsteps link content hmem).mono hW

private theorem Content.Made.mono {W' : Ways} (hW : ∀ {opcode shadow steps}, W opcode shadow steps →
    W' opcode shadow steps) : ∀ {content : Content}, content.Made W → content.Made W'
  | _, .literal value => .literal value
  | _, .single h => .single (h.mono hW)
  | _, .body h => .body fun part hpart => (h part hpart).mono hW

end

private theorem Chain.fromLowering_ofParts
    (h : ∀ part ∈ parts, FromLowering part.1.fault) : FromLowering (ofParts parts).fault := by
  induction parts with
  | nil => exact .none
  | cons part rest ih =>
    obtain ⟨⟨block, fault⟩, stops⟩ := part
    obtain ⟨hpart, hrest⟩ := forall_mem_cons.mp h
    cases fault with
    | some d => exact hpart
    | none =>
      cases block with
      | none => exact ih hrest
      | some first =>
        cases stops with
        | true => exact .none
        | false =>
          change FromLowering (Chain.cons first (ofParts rest)).fault
          unfold Chain.cons
          split <;> exact ih hrest

mutual

private theorem Assembly.Made.fromLowering :
    ∀ {shadow : Bool} {a : Assembly}, a.Made W shadow → FromLowering a.fault
  | _, _, .nothing => .none
  | _, _, .failed hd => hd
  | _, _, .block _ hfaults hsteps => by
    intro d hd
    obtain ⟨step, hstep, hfault⟩ :=
      exists_of_findSome?_eq_some ((fault_assembleFrom _ _).symm.trans hd)
    cases step with
    | field | mutation => cases hfault
    | fault _ => exact hfaults _ hstep d hfault
    | attach link content => exact (hsteps link content hstep).fromLowering d hfault

private theorem Content.Made.fromLowering :
    ∀ {content : Content}, content.Made W → FromLowering content.fault?
  | _, .literal _ => .none
  | _, .single h => h.fromLowering
  | _, .body h => Chain.fromLowering_ofParts fun part hpart => (h part hpart).fromLowering

end

private theorem Chain.linked_ofParts (h : ∀ part ∈ parts, part.1.Stackable) :
    (ofParts parts).Linked := by
  induction parts with
  | nil => exact nofun
  | cons part rest ih =>
    obtain ⟨hpart, hrest⟩ := forall_mem_cons.mp h
    exact (ih hrest).ofAssembly hpart _

mutual

private theorem Assembly.Made.linked
    (hW : ∀ {opcode shadow steps}, W opcode shadow steps → StepsApart steps) :
    ∀ {shadow : Bool} {a : Assembly} {b : Block}, a.Made W shadow → a = ⟨some b, none⟩ →
      b.Linked ∧ .next ∉ b.contents.links ∧ b.face.shadow = shadow
  | _, _, _, .nothing, hb | _, _, _, .failed _, hb => by cases hb
  | _, _, _, .block hway _ hsteps, hb =>
      (hW hway).assemble ((hW hway).linked_steps fun link content hmem =>
      (hsteps link content hmem).linked hW) hb

/-- What is made is linked. -/
theorem Content.Made.linked
    (hW : ∀ {opcode shadow steps}, W opcode shadow steps → StepsApart steps) :
    ∀ {content : Content}, content.Made W → content.Linked
  | _, .literal _ => nofun
  | _, .single h => fun _ hb => (h.linked hW (Content.assembly.inj hb)).1
  | _, .body h => (Chain.linked_ofParts fun part hpart _ hb => (h part hpart).linked hW hb).content

end

/-! ### What lowering makes -/

/-- Whether an operator divides by its right operand. -/
def BinaryOp.divides (op : BinaryOp) : Bool := op.zeroFault?.isSome

namespace Catalog

/-- The signatures of what assignments read and write. -/
def accessors (c : Catalog) : List Signature :=
  c.reporters.values.flatMap (·.signatures) ++ c.properties.values.flatMap fun p => p.set ::
    p.changes

/-- Accessors are signatures. -/
theorem accessors_subset (c : Catalog) : c.accessors ⊆ c.signatures := by
  intro s hs
  rcases mem_append.mp hs with hs | hs
  · obtain ⟨b, hb, hs⟩ := mem_flatMap.mp hs
    exact mem_append_left _ (mem_flatMap.mpr ⟨b, by simp [hb], hs⟩)
  · exact mem_append_right _ hs

/-- Properties have accessors. -/
theorem mem_accessors_of_property {c : Catalog} {p : Property}
    (hget : c.properties.get? name = some p) (hs : s ∈ p.set :: p.changes) : s ∈ c.accessors :=
  mem_append_right _ (mem_flatMap.mpr ⟨p, Table.mem_values_of_get? hget, hs⟩)

/-- Whether a call of a name may have a signature. A handler calls the hat of its event. -/
def HasSignature (c : Catalog) (callee : String) (s : Signature) : Prop :=
  (∃ b, c.functions.get? callee = some b ∧ s ∈ b.signatures) ∨
    (∃ b, c.statements.get? callee = some b ∧ s ∈ b.signatures) ∨
    ∃ name, callee = "@" ++ name ∧ c.hat? name = some s

/-- What is called has a signature. -/
theorem HasSignature.mem_signatures {c : Catalog} {callee : String} (h : c.HasSignature callee s) :
    s ∈ c.signatures := by
  rcases h with ⟨b, hget, hs⟩ | ⟨b, hget, hs⟩ | ⟨name, _, hhat⟩
  · exact mem_signatures_of_functions hget hs
  · exact mem_signatures_of_statements hget hs
  · exact mem_signatures_of_hat? hhat

end Catalog

/-- The kinds of blocks of the control flow and of truth that have inputs alone. -/
def controlOpcodes : List String :=
  ["operator_not", "event_broadcast", "control_if", "control_if_else", "control_forever",
    "control_repeat", "control_repeat_until"]

/-- The kinds of blocks that read or write a variable. -/
def variableOpcodes :
    List String := ["data_variable", "data_setvariableto", "data_changevariableby"]

namespace LowerContext

/-- What is known of the expressions and the statements that are lowered, and what follows for their
parts, for calls of entries of the catalog with their signatures, and for divisors. -/
structure Source (c : LowerContext) where
  expr : Expr → Prop
  stmt : Stmt → Prop
  call : String → Signature → List Expr → Prop
  divisor : Expr → Prop
  group : ∀ {tag inner}, expr (.group tag inner) → expr inner
  cast : ∀ {tag target operand}, expr (.cast tag target operand) → expr operand
  not : ∀ {tag operand}, expr (.not tag operand) → expr operand
  binary : ∀ {tag op left right}, expr (.binary tag op left right) →
    expr left ∧ expr right ∧ (op.divides = true → divisor right)
  arg : ∀ {tag callee args}, expr (.call tag callee args) → ∀ arg ∈ args, expr arg
  expr_call : ∀ {tag callee args b s}, expr (.call tag callee args) →
    c.catalog.functions.get? callee = some b →
    c.signature b args tag.span = .ok s → call callee s args
  stmt_arg : ∀ {name args span}, stmt (.call name args span) → ∀ arg ∈ args, expr arg
  stmt_call : ∀ {name args span b s}, stmt (.call name args span) →
    c.defs.functions.get? name = none → c.defs.events.get? name = none →
    c.catalog.statements.get? name = some b → c.signature b args span = .ok s → call name s args
  assign : ∀ {target op value span}, stmt (.assign target op value span) →
    expr value ∧ (op.binary?.any BinaryOp.divides = true → divisor value)
  branch : ∀ {condition thenBody elseBody span}, stmt (.branch condition thenBody elseBody span) →
    expr condition ∧ (∀ s ∈ thenBody, stmt s) ∧ ∀ s ∈ elseBody, stmt s
  loop : ∀ {kind body span}, stmt (.loop kind body span) → (∀ e ∈ kind.exprs, expr e) ∧
    ∀ s ∈ body, stmt s

/-- Nothing need be known of what is lowered. -/
def Source.any (c : LowerContext) : c.Source where
  expr _ := True
  stmt _ := True
  call _ _ _ := True
  divisor _ := True
  group _ := trivial
  cast _ := trivial
  not _ := trivial
  binary _ := ⟨trivial, trivial, fun _ => trivial⟩
  arg _ _ _ := trivial
  expr_call _ _ _ := trivial
  stmt_arg _ _ _ := trivial
  stmt_call _ _ _ _ _ := trivial
  assign _ := ⟨trivial, fun _ => trivial⟩
  branch _ := ⟨trivial, fun _ _ => trivial, fun _ _ => trivial⟩
  loop _ := ⟨fun _ _ => trivial, fun _ _ => trivial⟩

/-- The ways in which blocks of bodies are assembled. -/
inductive BodyWay (c : LowerContext) (S : c.Source) : Ways where
  /-- An operation. What it divides by stands for a divisor of the program. -/
  | operation {op : BinaryOp} {type : DataType} {left right : Content}
      (hright : op.divides = true → ∃ x, S.divisor x ∧ right = c.lowerExpr x) :
      BodyWay c S (op.layout type).1 false
        [.input (op.layout type).2.1 left, .input (op.layout type).2.2 right]
  /-- A part of the control flow. -/
  | control {opcode : String} {steps : List Step} (hcode : opcode ∈ controlOpcodes)
      (hsteps : ∀ step ∈ steps, step.link? ≠ none) (hapart : StepsApart steps) :
      BodyWay c S opcode false steps
  /-- A parameter of the function around. -/
  | param {f : Function} {p : FunctionParam} {shadow : Bool} (hf : c.function = some f)
      (hp : p ∈ f.params) : BodyWay c S p.type.reporterOpcode shadow [.text "VALUE" p.name]
  /-- A variable that is read or assigned. -/
  | scalar {opcode name : String} {v : Variable} {steps : List Step}
      (hv : c.defs.scalars.get? name = some v) (hcode : opcode ∈ variableOpcodes)
      (hsteps : ∀ step ∈ steps, step.link? ≠ none) (hapart : StepsApart steps) :
      BodyWay c S opcode false (.entity "VARIABLE" v.name v.id :: steps)
  /-- A list. -/
  | list {name : String} {l : ListVariable} (hl : c.defs.lists.get? name = some l) :
      BodyWay c S "data_listcontents" false [.entity "LIST" l.name l.id]
  /-- A property that is read, or to which a value is assigned that goes into an input. -/
  | accessor {s : Signature} {steps : List Step} (hs : s ∈ c.catalog.accessors)
      (hsteps : ∀ step ∈ steps, step.link? ≠ none ∨ step.fault? ≠ none)
      (hapart : StepsApart steps) : BodyWay c S s.opcode false (s.fieldSteps ++ steps)
  /-- A property that is set. -/
  | setter {target : String} {p : Property} {value : Expr}
      (hp : c.catalog.properties.get? target = some p) :
      BodyWay c S p.set.opcode false (p.set.fieldSteps ++ c.placeAll target p.set.params [value])
  /-- A call of an entry of the catalog. -/
  | builtin {s : Signature} {callee : String} {args : List Expr}
      (hs : c.catalog.HasSignature callee s) (hcall : S.call callee s args) :
      BodyWay c S s.opcode false (s.fieldSteps ++ c.placeAll callee s.params args)
  /-- The menu of a parameter. -/
  | menu {s : Signature} {spec : ParamSpec} {name opcode field text : String}
      (hs : s ∈ c.catalog.signatures)
      (hspec : spec ∈ s.params) (hslot : spec.slot = .menu name opcode field) :
      BodyWay c S opcode true [.text field text]
  /-- A call of a function of the program. -/
  | functionCall {name : String} {f : Function} {args : List Expr}
      (hf : c.defs.functions.get? name = some f) :
      BodyWay c S "procedures_call" false ((f.params.zip args).map (fun (param, arg) =>
        Step.input param.id.text (c.lowerExpr arg)) ++
        [.mutation { procedure := f.procedure, argumentIds := f.params.map (·.id) }])
  /-- The menu of a broadcast. -/
  | eventMenu {name : String} {event : CustomEvent} (he : c.defs.events.get? name = some event) :
      BodyWay c S "event_broadcast_menu" true [.entity "BROADCAST_OPTION" name event.id]

end LowerContext

/-- Whether what a step attaches is made in some ways, or its own fault is one of lowering. -/
def Step.Made (W : Ways) : Step → Prop
  | .attach _ content => content.Made W
  | .fault d => FromLowering (some d)
  | _ => True

/-- A block is made of its steps. -/
theorem Assembly.made_assemble (hway : W opcode shadow steps) (h : ∀ step ∈ steps, step.Made W) :
    (assemble opcode steps shadow).Made W shadow :=
  .block hway (fun d hd => h (.fault d) hd) fun link content hmem => h (.attach link content) hmem

private theorem Content.made_ofSteps (hway : W opcode false steps)
    (h : ∀ step ∈ steps, step.Made W) : (Content.ofSteps opcode steps).Made W :=
  .single (Assembly.made_assemble hway h)

private theorem Content.made_failed (fault : LoweringFault) (span : Span) :
    (Content.failed fault span).Made W :=
  .single (@Assembly.Made.failed _ false _ (.fault fault span))

private theorem Assembly.made_failed (fault : LoweringFault) (span : Span) :
    (Assembly.failed fault span).Made W false :=
  .failed (.fault fault span)

private theorem Step.Made.mono {W' : Ways} (hW : ∀ {opcode shadow steps}, W opcode shadow steps →
    W' opcode shadow steps) {step : Step} (h : step.Made W) : step.Made W' := by
  cases step with
  | attach link content => exact Content.Made.mono hW h
  | _ => exact h

/-- Fixed fields are made. -/
theorem Signature.made_fieldSteps (s : Signature) : ∀ step ∈ s.fieldSteps, step.Made W := by
  intro step hstep
  obtain ⟨_, _, rfl⟩ := mem_map.mp hstep
  trivial

namespace LowerContext

variable {c : LowerContext} {S : c.Source}

private theorem mem_of_param? {p : FunctionParam} (h : c.param? name = some p) :
    ∃ f, c.function = some f ∧ p ∈ f.params ∧ p.name = name := by
  obtain ⟨f, hf, hp⟩ := Option.bind_eq_some_iff.mp h
  exact ⟨f, hf, mem_of_find?_eq_some hp, by simpa using find?_some hp⟩

private theorem made_variable {v : Variable} (hv : c.defs.scalars.get? name = some v) :
    v.reporter.Made (c.BodyWay S) :=
  Content.made_ofSteps (.scalar hv (by decide) (forall_mem_nil _) (.of_no_links (forall_mem_nil _)))
    (forall_mem_singleton.mpr trivial)

private theorem made_reporter (hs : c.catalog.reporter? name = some s) :
    s.reporter.Made (c.BodyWay S) := by
  obtain ⟨b, hget, hhead⟩ := Option.bind_eq_some_iff.mp hs
  have hmem : s ∈ c.catalog.accessors := mem_append_left _
    (mem_flatMap.mpr ⟨b, Table.mem_values_of_get? hget, mem_of_head? hhead⟩)
  have hway : c.BodyWay S s.opcode false (s.fieldSteps ++ []) :=
    .accessor hmem (forall_mem_nil _) (.of_no_links (forall_mem_nil _))
  rw [append_nil] at hway
  exact Content.made_ofSteps hway s.made_fieldSteps

private theorem made_lowerName (name : String) (span : Span) :
    (c.lowerName name span).Made (c.BodyWay S) := by
  unfold lowerName
  split
  · rename_i p hp
    obtain ⟨f, hf, hmem, rfl⟩ := mem_of_param? hp
    exact Content.made_ofSteps (.param hf hmem) (forall_mem_singleton.mpr trivial)
  split
  · rename_i v hv
    exact made_variable hv
  split
  · rename_i l hl
    exact Content.made_ofSteps (.list hl) (forall_mem_singleton.mpr trivial)
  split
  · exact .literal _
  split
  · rename_i s hs
    exact made_reporter hs
  · exact Content.made_failed _ _

private theorem made_operation {op : BinaryOp} {type : DataType} {left right : Content}
    (hright : op.divides → ∃ x, S.divisor x ∧ right = c.lowerExpr x)
    (hleft : left.Made (c.BodyWay S)) (hmade : right.Made (c.BodyWay S)) :
    (Content.ofSteps (op.layout type).1 [.input (op.layout type).2.1 left,
      .input (op.layout type).2.2 right]).Made (c.BodyWay S) := by
  refine Content.made_ofSteps (.operation hright) ?_
  rw [forall_mem_cons, forall_mem_singleton]
  exact ⟨hleft, hmade⟩

private theorem made_control (hcode : opcode ∈ controlOpcodes) (hapart : StepsApart steps)
    (hsteps : ∀ step ∈ steps, step.link? ≠ none ∧ step.Made (c.BodyWay S)) :
    (assemble opcode steps).Made (c.BodyWay S) false :=
  Assembly.made_assemble (.control hcode (fun step hstep => (hsteps step hstep).1) hapart)
    fun step hstep => (hsteps step hstep).2

private theorem fromLowering_of_signature {b : Builtin} {d : Diagnostic}
    (h : c.signature b args span = .error d) : FromLowering (some d) := by
  unfold signature at h
  split at h
  · cases h
    exact .fault _ _
  · split at h
    · cases h
    · cases h
      exact .fault _ _

private theorem made_place (hs : s ∈ c.catalog.signatures) {spec : ParamSpec}
    (hspec : spec ∈ s.params) (callee : String) (arg : Expr) {content : Content}
    (hcontent : content.Made (c.BodyWay S)) :
    (c.place callee spec arg content).Made (c.BodyWay S) := by
  unfold place
  split
  · exact hcontent
  · split
    · trivial
    · exact .fault _ _
  · rename_i name opcode field hslot
    split
    · exact .single (Assembly.made_assemble (.menu hs hspec hslot)
        (forall_mem_singleton.mpr trivial))
    · exact hcontent
  · split
    · trivial
    · exact .fault _ _

mutual

private theorem made_lowerExpr : ∀ {e : Expr}, S.expr e → (c.lowerExpr e).Made (c.BodyWay S)
  | .literal _ (.boolean true), _ => by
    exact .single (made_control (by decide) (.of_no_links (forall_mem_nil _)) (forall_mem_nil _))
  | .literal _ (.boolean false), _ => by
    exact .single (@Assembly.Made.nothing _ false)
  | .literal _ (.number _), _ | .literal _ (.string _), _ => by
    rw [lowerExpr]
    exact .literal _
    all_goals nofun
  | .group _ inner, h => by
    rw [lowerExpr]
    exact made_lowerExpr (S.group h)
  | .ident tag name, _ => by
    exact made_lowerName name tag.span
  | .call tag callee args, h => by
    rw [lowerExpr]
    split
    · exact Content.made_failed _ _
    rename_i b hget
    split
    · rename_i d hd
      exact .single (@Assembly.Made.failed _ false _ (fromLowering_of_signature hd))
    rename_i s hs
    have hsig : c.catalog.HasSignature callee s := .inl ⟨b, hget, mem_of_signature_ok hs⟩
    refine Content.made_ofSteps (.builtin hsig (S.expr_call h hget hs)) ?_
    exact forall_mem_append.mpr ⟨s.made_fieldSteps,
      made_placeAll hsig.mem_signatures callee (List.Subset.refl _) (S.arg h)⟩
  | .cast _ target operand, h => by
    have hoperand := made_lowerExpr (S.cast h)
    rw [lowerExpr]
    split
    · exact Content.made_failed _ _
    split
    · exact hoperand
    · rename_i op type neutral hlayout
      refine made_operation (fun hdivides => ?_) hoperand (.literal _)
      unfold castLayout? at hlayout
      split at hlayout <;> cases hlayout <;> cases hdivides
  | .not _ operand, h => by
    exact .single (made_control (by decide) (.input _ _)
      (forall_mem_singleton.mpr ⟨nofun, made_lowerExpr (S.not h)⟩))
  | .binary tag op left right, h => by
    obtain ⟨hleft, hright, hdivisor⟩ := S.binary h
    rw [lowerExpr]
    split
    · exact Content.made_failed _ _
    · exact made_operation (fun hdivides => ⟨right, hdivisor hdivides, rfl⟩) (made_lowerExpr hleft)
        (made_lowerExpr hright)
  | .list tag _, _ => by
    exact Content.made_failed _ _

/-- Arguments are made. -/
theorem made_placeAll {s : Signature} (hs : s ∈ c.catalog.signatures) (callee : String) :
    ∀ {specs : List ParamSpec} {args : List Expr}, specs ⊆ s.params → (∀ arg ∈ args, S.expr arg) →
      ∀ step ∈ c.placeAll callee specs args, step.Made (c.BodyWay S)
  | spec :: specs, arg :: args, hspecs, h => by
    rw [cons_subset] at hspecs
    rw [forall_mem_cons] at h
    rw [placeAll, forall_mem_cons]
    exact ⟨made_place hs hspecs.1 callee arg (made_lowerExpr h.1),
      made_placeAll hs callee hspecs.2 h.2⟩
  | [], _, _, _ => by simp [placeAll]
  | _ :: _, [], _, _ => by simp [placeAll]

end

private theorem made_lowerBroadcast {event : CustomEvent}
    (he : c.defs.events.get? name = some event) :
    (lowerBroadcast event name).Made (c.BodyWay S) false := by
  have hmenu :
      (assemble "event_broadcast_menu" [.entity "BROADCAST_OPTION" name event.id] true).Made
      (c.BodyWay S) true :=
    Assembly.made_assemble (.eventMenu he) (forall_mem_singleton.mpr trivial)
  exact made_control (by decide) (.input _ _) (forall_mem_singleton.mpr ⟨nofun, .single hmenu⟩)

private theorem made_lowerFunctionCall {f : Function} (hf : c.defs.functions.get? name = some f)
    (h : ∀ arg ∈ args, S.expr arg) : (c.lowerFunctionCall f args).Made (c.BodyWay S) false := by
  refine Assembly.made_assemble (.functionCall hf)
    (forall_mem_append.mpr ⟨fun step hstep => ?_, ?_⟩)
  · obtain ⟨p, hp, rfl⟩ := mem_map.mp hstep
    exact made_lowerExpr (h p.2 (of_mem_zip hp).2)
  · exact forall_mem_singleton.mpr trivial

private theorem made_lowerCall (h : S.stmt (.call name args span)) :
    (c.lowerCall name args span).1.Made (c.BodyWay S) false := by
  unfold lowerCall
  split
  · rename_i f hf
    exact made_lowerFunctionCall hf (S.stmt_arg h)
  rename_i hfun
  split
  · rename_i event he
    exact made_lowerBroadcast he
  rename_i hevent
  split
  · exact Assembly.made_failed _ _
  rename_i b hget
  split
  · rename_i d hd
    exact .failed (fromLowering_of_signature hd)
  rename_i s hs
  have hsig : c.catalog.HasSignature name s := .inr (.inl ⟨b, hget, mem_of_signature_ok hs⟩)
  refine Assembly.made_assemble (.builtin hsig (S.stmt_call h
    (Option.eq_none_iff_forall_ne_some.mpr hfun)
    (Option.eq_none_iff_forall_ne_some.mpr hevent) hget hs)) ?_
  exact forall_mem_append.mpr ⟨s.made_fieldSteps,
    made_placeAll hsig.mem_signatures name (List.Subset.refl _) (S.stmt_arg h)⟩

section Assignments

variable {target : String} {op : AssignOp} {value : Expr}
  (hvalue : (c.lowerExpr value).Made (c.BodyWay S))
  (hdivisor : op.binary?.any BinaryOp.divides = true → S.divisor value)

include hvalue

private theorem made_negated : (c.negated value).Made (c.BodyWay S) := by
  unfold negated
  split
  · exact .literal _
  · exact @made_operation _ _ .mul .number _ _ nofun (.literal _) hvalue

include hdivisor

private theorem made_combine {binary : BinaryOp} (hbinary : op.binary? = some binary)
    (type : DataType) {current : Content} (hcurrent : current.Made (c.BodyWay S)) :
    (c.combine binary type current value).Made (c.BodyWay S) :=
  made_operation (fun hdivides => ⟨value, hdivisor (by simp [hbinary, hdivides]), rfl⟩)
    hcurrent hvalue

private theorem made_assignVariable {v : Variable} (hv : c.defs.scalars.get? target = some v) :
    (c.assignVariable v op value).Made (c.BodyWay S) false := by
  have hassign {opcode : String} (hcode : opcode ∈ variableOpcodes) {content : Content}
      (hcontent : content.Made (c.BodyWay S)) :
      (assemble opcode [.entity "VARIABLE" v.name v.id, .input "VALUE" content]).Made (c.BodyWay S)
      false := by
    refine Assembly.made_assemble (.scalar hv hcode (forall_mem_singleton.mpr nofun) (.input _ _))
      ?_
    rw [forall_mem_cons, forall_mem_singleton]
    exact ⟨trivial, hcontent⟩
  unfold assignVariable
  split
  · exact hassign (by decide) hvalue
  refine hassign (by decide) ?_
  split
  · exact hvalue
  · rename_i binary hbinary
    exact made_combine hvalue hdivisor hbinary _ (made_variable hv)

omit hvalue hdivisor in
private theorem made_propertyBlock (hs : s ∈ c.catalog.accessors) {content : Content}
    (hcontent : content.Made (c.BodyWay S)) (span : Span) :
    (propertyBlock s content span).Made (c.BodyWay S) false := by
  have hstep : (valueStep s content span).Made (c.BodyWay S) ∧
      ((valueStep s content span).link? ≠ none ∨ (valueStep s content span).fault? ≠ none) ∧
      StepsApart [valueStep s content span] := by
    unfold valueStep
    split
    · exact ⟨hcontent, .inl nofun, .input _ _⟩
    · exact ⟨.fault _ _, .inr nofun, .of_no_links (forall_mem_singleton.mpr rfl)⟩
  refine Assembly.made_assemble (.accessor hs (forall_mem_singleton.mpr hstep.2.1) hstep.2.2) ?_
  exact forall_mem_append.mpr ⟨s.made_fieldSteps, forall_mem_singleton.mpr hstep.1⟩

private theorem made_assignProperty {property : Property}
    (hget : c.catalog.properties.get? target = some property) (hexpr : S.expr value) (span : Span) :
    (c.assignProperty property target op value span).Made (c.BodyWay S) false := by
  have hset := Catalog.mem_accessors_of_property hget mem_cons_self
  have hchange (change : Signature) (h : property.change? = some change) :
      change ∈ c.catalog.accessors :=
    Catalog.mem_accessors_of_property hget (mem_cons_of_mem _ (mem_of_head? h))
  unfold assignProperty
  split
  · refine Assembly.made_assemble (.setter hget)
      (forall_mem_append.mpr ⟨property.set.made_fieldSteps, ?_⟩)
    exact made_placeAll (Catalog.mem_signatures_of_set hget) target (List.Subset.refl _)
      (forall_mem_singleton.mpr hexpr)
  · rename_i change hsome _
    exact made_propertyBlock (hchange change hsome) hvalue span
  · rename_i change hsome _
    exact made_propertyBlock (hchange change hsome) (made_negated hvalue) span
  · rename_i binary hbinary _ _
    split
    · exact Assembly.made_failed _ _
    · rename_i reporter hrep
      exact made_propertyBlock hset (made_combine hvalue hdivisor hbinary _ (made_reporter hrep))
        span

end Assignments

private theorem made_lowerAssign {target : String} {op : AssignOp} {value : Expr}
    (h : S.stmt (.assign target op value span)) :
    (c.lowerAssign target op value span).Made (c.BodyWay S) false := by
  obtain ⟨hexpr, hdivisor⟩ := S.assign h
  have hvalue := made_lowerExpr hexpr
  unfold lowerAssign
  split
  · rename_i v hv
    exact made_assignVariable hvalue hdivisor hv
  split
  · rename_i property hget
    exact made_assignProperty hvalue hdivisor hget hexpr span
  · exact Assembly.made_failed _ _

private theorem lowerBody_eq (body : List Stmt) :
    c.lowerBody body = .ofParts (body.map c.lowerStmt) := by
  induction body with
  | nil => rw [lowerBody, map_nil, Chain.ofParts]
  | cons stmt rest ih => rw [lowerBody, ih, map_cons, Chain.ofParts]

mutual

private theorem made_lowerStmt :
    ∀ {stmt : Stmt}, S.stmt stmt → (c.lowerStmt stmt).1.Made (c.BodyWay S) false
  | .varDecl .., _ | .constDecl .., _ | .funcDecl .., _ | .event .., _ => by
    exact .nothing
  | .call name args span, h => by
    exact made_lowerCall h
  | .assign target op value span, h => by
    exact made_lowerAssign h
  | .branch condition thenBody elseBody span, h => by
    obtain ⟨hcond, hthen, helse⟩ := S.branch h
    have hcond := made_lowerExpr hcond
    have hthen := made_lowerBody hthen
    have helse := made_lowerBody helse
    rw [lowerStmt]
    split
    · refine made_control (by decide) (.inputs (by decide) _ _) ?_
      rw [forall_mem_cons, forall_mem_singleton]
      exact ⟨⟨nofun, hcond⟩, nofun, hthen⟩
    · refine made_control (by decide) (branchSteps_apart _ _ _) ?_
      rw [forall_mem_cons, forall_mem_cons, forall_mem_singleton]
      exact ⟨⟨nofun, hcond⟩, ⟨nofun, hthen⟩, nofun, helse⟩
  | .loop kind body span, h => by
    obtain ⟨hheader, hbody⟩ := S.loop h
    have hbody := made_lowerBody hbody
    have hcode :
      (c.lowerLoop kind).1 ∈ controlOpcodes := by cases kind <;> simp [lowerLoop, controlOpcodes]
    refine made_control hcode (lowerLoop_apart kind _)
      (forall_mem_append.mpr ⟨?_, forall_mem_singleton.mpr ⟨nofun, hbody⟩⟩)
    cases kind with
    | forever => exact forall_mem_nil _
    | times count | «until» count =>
      have hcount := made_lowerExpr (hheader count mem_cons_self)
      exact forall_mem_singleton.mpr ⟨by rintro ⟨⟩, hcount⟩

/-- A body is made. -/
theorem made_lowerBody : ∀ {body : List Stmt}, (∀ stmt ∈ body, S.stmt stmt) →
    (c.lowerBody body).content.Made (c.BodyWay S)
  | [], _ => by
    exact .body (forall_mem_nil _)
  | stmt :: rest, h => by
    rw [lowerBody_eq]
    refine .body fun part hpart => ?_
    obtain ⟨stmt, hstmt, rfl⟩ := mem_map.mp hpart
    exact made_lowerStmt (h stmt hstmt)

end

/-! ### Links of bodies -/

private theorem BinaryOp.layout_inputs_ne (op : BinaryOp) (type : DataType) :
    (op.layout type).2.1 ≠ (op.layout type).2.2 := by
  cases op with
  | add => by_cases htype : type = .string <;> simp [BinaryOp.layout, htype]
  | _ => simp [BinaryOp.layout]

/-- What a block of a body holds has links of its own. -/
theorem BodyWay.apart (hapart : c.InputsApart) (h : c.BodyWay S opcode shadow steps) :
    StepsApart steps := by
  cases h with
  | @operation op type => exact .inputs (BinaryOp.layout_inputs_ne op type) _ _
  | control _ _ h => exact h
  | param | list | menu | eventMenu => exact .of_no_links (forall_mem_singleton.mpr rfl)
  | scalar _ _ _ h => exact .no_links_append (forall_mem_singleton.mpr rfl) h
  | accessor _ _ h => exact .no_links_append (fieldSteps_link? _) h
  | setter hp => exact signatureSteps_apart hapart (Catalog.mem_signatures_of_set hp) _ (.refl _) _
  | builtin hs => exact signatureSteps_apart hapart hs.mem_signatures _ (.refl _) _
  | functionCall hf => exact functionCallSteps_apart hapart hf _

/-- A statement can be stacked. -/
theorem lowerStmt_stackable (hapart : c.InputsApart) (stmt : Stmt) :
    (c.lowerStmt stmt).1.Stackable :=
  fun _ hb => (@made_lowerStmt c (.any c) stmt trivial).linked (BodyWay.apart hapart) hb

/-- A body is linked. -/
theorem lowerBody_linked (hapart : c.InputsApart) (body : List Stmt) :
    (c.lowerBody body).Linked := by
  rw [lowerBody_eq]
  exact Chain.linked_ofParts (forall_mem_map.mpr fun stmt _ => lowerStmt_stackable hapart stmt)

/-! ### Scripts -/

/-- What lowering looks up in the script of an item: a function is around its body. -/
def inside (c : LowerContext) : Stmt → LowerContext
  | .funcDecl name _ _ _ _ => { c with function := c.defs.functions.get? name }
  | _ => c

/-- Items have the same catalog. -/
theorem catalog_inside (c : LowerContext) (item : Stmt) : (c.inside item).catalog = c.catalog := by
  cases item <;> rfl

/-- What is known of the parts of an item. -/
def Source.Item (S : c.Source) : Stmt → Prop
  | .event _ _ param body _ _ => (∀ e ∈ param, S.expr e) ∧ ∀ stmt ∈ body, S.stmt stmt
  | .funcDecl _ _ body _ _ => ∀ stmt ∈ body, S.stmt stmt
  | _ => True

/-- Any item will do. -/
theorem Source.item_any (item : Stmt) : (any c).Item item := by
  cases item with
  | event => exact ⟨fun _ _ => trivial, fun _ _ => trivial⟩
  | funcDecl => exact fun _ _ => trivial
  | _ => trivial

/-- The ways in which blocks of scripts are assembled. -/
inductive ScriptWay (c : LowerContext) (S : c.Source) : Ways where
  /-- The hat of an event of the catalog. -/
  | hat {name : String} {s : Signature} {steps : List Step} (hs : c.catalog.hat? name = some s) :
      ScriptWay c S s.opcode false steps
  /-- The hat of an event of the program. -/
  | receiver {steps : List Step} : ScriptWay c S "event_whenbroadcastreceived" false steps
  /-- The definition of a function. -/
  | definition {steps : List Step} : ScriptWay c S "procedures_definition" false steps
  /-- The prototype of a function. -/
  | prototype {steps : List Step} (hsteps : ∀ step ∈ steps, step.link? ≠ some .next) :
      ScriptWay c S "procedures_prototype" true steps
  /-- All else. -/
  | inner {opcode : String} {shadow : Bool} {steps : List Step}
      (h : c.BodyWay S opcode shadow steps) : ScriptWay c S opcode shadow steps

private theorem made_bodyStep {body : List Stmt} (h : ∀ stmt ∈ body, S.stmt stmt) :
    (c.bodyStep body).Made (c.ScriptWay S) :=
  (made_lowerBody h).mono .inner

private theorem made_lowerEvent (kind : EventKind) (name : String) {param : Option Expr}
    {body : List Stmt} (span : Span) (hparam : ∀ e ∈ param, S.expr e)
    (hbody : ∀ stmt ∈ body, S.stmt stmt) :
    (c.lowerEvent kind name param body span).Made (c.ScriptWay S) false := by
  have hbody := made_bodyStep hbody
  have hhat : (c.lowerEvent .builtin name param body span).Made (c.ScriptWay S) false := by
    unfold lowerEvent
    dsimp only
    split
    · exact Assembly.made_failed _ _
    rename_i s hs
    have hplaced := made_placeAll (S := S) (Catalog.mem_signatures_of_hat? hs) ("@" ++ name)
      (take_subset 1 s.params) fun arg harg => hparam arg (Option.mem_toList.mp harg)
    refine Assembly.made_assemble (.hat hs) ?_
    rw [forall_mem_append, forall_mem_append, forall_mem_singleton]
    exact ⟨⟨s.made_fieldSteps, fun step hstep => (hplaced step hstep).mono .inner⟩, hbody⟩
  cases kind with
  | builtin => exact hhat
  | startup => exact hhat
  | custom =>
    unfold lowerEvent
    dsimp only
    split
    · exact Assembly.made_failed _ _
    · refine Assembly.made_assemble .receiver ?_
      rw [forall_mem_cons, forall_mem_singleton]
      exact ⟨trivial, hbody⟩

private theorem made_lowerPrototype {f : Function} (hf : c.function = some f) :
    (lowerPrototype f).Made (c.ScriptWay S) true := by
  refine Assembly.made_assemble (.prototype ?_) ?_
  · rw [forall_mem_append, forall_mem_map, forall_mem_singleton]
    exact ⟨fun _ _ => nofun, nofun⟩
  · rw [forall_mem_append, forall_mem_map, forall_mem_singleton]
    refine ⟨fun param hparam => @Content.Made.single _ true _ ?_, trivial⟩
    exact Assembly.made_assemble (.inner (.param hf hparam)) (forall_mem_singleton.mpr trivial)

private theorem made_lowerItem {item : Stmt} {S : (c.inside item).Source} (h : S.Item item) :
    (c.lowerItem item).Made ((c.inside item).ScriptWay S) false := by
  cases item with
  | event kind name param body span endLine => exact made_lowerEvent kind name span h.1 h.2
  | funcDecl name params body span endLine =>
    rw [lowerItem, lowerFunction]
    split
    · exact Assembly.made_failed _ _
    rename_i f hf
    have hinside :
        c.inside (.funcDecl name params body span endLine) = { c with function := some f } := by
      rw [inside, hf]
    have hfun : (c.inside (.funcDecl name params body span endLine)).function = some f := hf
    rw [← hinside]
    refine Assembly.made_assemble .definition ?_
    rw [forall_mem_cons, forall_mem_singleton]
    exact ⟨.single (made_lowerPrototype hfun), made_bodyStep h⟩
  | _ => exact .nothing

end LowerContext

section Programs

variable {catalog : Catalog} {types : TypeTable} {defs : Definitions} {program : Program}

/-- Lowering reports faults of its own only. -/
theorem Program.fromLowering_of_mem_lower {d : Diagnostic}
    (hd : d ∈ (program.lower catalog types defs).errors) :
    ∃ fault span, d = .lowering fault span := by
  obtain ⟨script, hscript, hfault⟩ := mem_filterMap.mp hd
  obtain ⟨item, _, rfl⟩ := mem_map.mp hscript
  exact (LowerContext.made_lowerItem (LowerContext.Source.item_any item)).fromLowering d hfault

private theorem Graph.exists_mem_script {scripts : List Block} {p : Placed}
    (hp : p ∈ placedFrom start scripts) : ∃ b ∈ scripts, ∃ top, p ∈ b.placed top := by
  induction scripts generalizing start with
  | nil => cases hp
  | cons script rest ih =>
    rcases mem_append.mp hp with hp | hp
    · exact ⟨script, mem_cons_self, start, hp⟩
    · obtain ⟨b, hb, hscript⟩ := ih hp
      exact ⟨b, mem_cons_of_mem _ hb, hscript⟩

/-- Every block that lowering leaves of an item is assembled in one of the ways. -/
theorem LowerContext.stands_of_lowerItem {c : LowerContext} {item : Stmt}
    {S : (c.inside item).Source} (hS : S.Item item) {b : Block}
    (hb : (c.lowerItem item).block = some b) {p : Placed} {top : Nat} (hp : p ∈ b.placed top) :
    p.block.Stands ((c.inside item).ScriptWay S) false := by
  obtain ⟨hmade, hcont⟩ := (made_lowerItem hS).all hb fun h : false = true => nomatch h
  rcases mem_cons.mp hp with rfl | hp
  · exact hmade.stands
  · exact hcont.of_mem_placed hp

/-- Every block that lowering leaves of a program is assembled in one of the ways, in the script of
one of the items. -/
theorem Program.exists_stands
    {S : ∀ item, (LowerContext.inside { defs, types, catalog } item).Source}
    (hS : ∀ item ∈ program.statements, (S item).Item item) {node : Node}
    (hnode : node ∈ (program.lower catalog types defs).graph.nodes) :
    ∃ item ∈ program.statements, ∃ p : Placed, p.node = node ∧
      p.block.Stands ((LowerContext.inside { defs, types, catalog } item).ScriptWay (S item))
      false := by
  obtain ⟨i, hi⟩ := mem_iff_getElem?.mp hnode
  obtain ⟨p, hp, _, rfl⟩ := Graph.getElem?_ofScripts_iff.mp hi
  obtain ⟨b, hb, top, hplaced⟩ := Graph.exists_mem_script hp
  obtain ⟨a, ha, hblock⟩ := mem_filterMap.mp hb
  obtain ⟨item, hitem, rfl⟩ := mem_map.mp ha
  exact ⟨item, hitem, p, rfl, LowerContext.stands_of_lowerItem (hS item hitem) hblock hplaced⟩

end Programs

end BlockScript
