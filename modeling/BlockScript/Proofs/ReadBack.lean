import BlockScript.Proofs.Chains
import BlockScript.Proofs.Reading

/-!
# Expressions and programs are read back

Reading is the inverse of lowering: what holds the content of an expression is read as the normal
form of the expression. A block is read by what its steps say, whatever else the graph holds, so
each kind of content has a lemma of its own, and the result for all expressions follows their
structure.
-/

namespace BlockScript

section

open List Step

variable {opcode name callee : String} {steps : List Step} {field : Field} {n node : Node}
  {read : Option Input → Option Term} {shadow : Bool} {b : Builtin} {t : Term} {c : Catalog}
  {s : Signature} {args : List Expr} {spec : ParamSpec} {arg : Expr} {specs : List ParamSpec}
  {source target : DataType} {span : Span} {ts : List Term}

/-- The field that a step sets. -/
def Step.field? : Step → Option (String × Field)
  | .field name value => some (name, value)
  | _ => none

/-- The names of the fields that steps set. -/
def fieldNames (steps : List Step) : List String := (steps.filterMap field?).map Prod.fst

private theorem fault?_of_ofSteps (h : (Content.ofSteps opcode steps).fault? = none) :
    ∀ step ∈ steps, step.fault? = none := by
  obtain ⟨b, hb⟩ := LowerContext.exists_of_assemble h
  exact fault?_of_assembleFrom (assembleFrom_of_assemble hb)

section Fields

private theorem fieldNames_cons_field (name : String) (field : Field) (rest : List Step) :
    fieldNames (.field name field :: rest) = name :: fieldNames rest := rfl

private theorem get?_foldl_onFace_of_not_mem (hname : name ∉ fieldNames steps) (face : Face) :
    (steps.foldl onFace face).fields.get? name = face.fields.get? name := by
  induction steps generalizing face with
  | nil => rfl
  | cons step rest ih =>
    cases step with
    | field other field =>
      rw [fieldNames_cons_field, mem_cons, not_or] at hname
      rw [foldl_cons, ih hname.2, onFace, Table.get?_insert, if_neg (Ne.symm hname.1)]
    | mutation m => exact ih hname _
    | attach link content => exact ih hname _
    | fault d => exact ih hname _

/-- A field is set once. -/
theorem get?_foldl_onFace (hnodup : (fieldNames steps).Nodup) (hmem : .field name field ∈ steps)
    (face : Face) : (steps.foldl onFace face).fields.get? name = some field := by
  induction steps generalizing face with
  | nil => cases hmem
  | cons step rest ih =>
    rcases mem_cons.mp hmem with rfl | hrest
    · have hfresh := (nodup_cons.mp hnodup).1
      rw [foldl_cons, get?_foldl_onFace_of_not_mem hfresh, onFace, Table.get?_insert, if_pos rfl]
    · cases step with
      | field other value => exact ih (nodup_cons.mp hnodup).2 hrest _
      | mutation m | attach link content | fault d => exact ih hnodup hrest _

/-- A field of a face is set by a step, or it was there before. -/
theorem mem_of_mem_foldl_onFace {face : Face}
    (h : (name, field) ∈ (steps.foldl onFace face).fields.entries) :
    .field name field ∈ steps ∨ (name, field) ∈ face.fields.entries := by
  induction steps generalizing face with
  | nil => exact .inr h
  | cons step rest ih =>
    rcases ih h with hmem | hface
    · exact .inl (mem_cons_of_mem _ hmem)
    · cases step with
      | field other value =>
        rcases Table.mem_entries_insert hface with heq | hface
        · cases heq
          exact .inl mem_cons_self
        · exact .inr hface
      | mutation m => exact .inr hface
      | attach link content => exact .inr hface
      | fault d => exact .inr hface

end Fields

private theorem Term.cast_of_castLayout?_eq_none (h : castLayout? source target = none)
    (t : Term) : t.cast source target = t := by
  cases source <;> cases target <;> first | rfl | cases h

private theorem Term.cast_of_castLayout? {type : DataType} {op : BinaryOp} {neutral : Value}
    (h : castLayout? source target = some (op, type, neutral)) (t : Term) :
    t.cast source target = .operation (op.operation type) t (.value neutral) := by
  cases source <;> cases target <;> cases h <;> rfl

/-- What a block says that is assembled of steps, where `read` reads its inputs and `Reads` says
what contents are read as. -/
structure Node.Says (n : Node) (read : Option Input → Option Term) (Reads : Content → Term → Prop)
    (opcode : String) (shadow : Bool) (steps : List Step) : Prop where
  face : n.face = steps.foldl onFace { opcode, shadow }
  fault : ∀ step ∈ steps, step.fault? = none
  input : ∀ name content t, .input name content ∈ steps → Reads content t →
    read (n.inputs.get? name) = some t
  empty : ∀ name, .input name ∉ steps.filterMap link? →
    read (n.inputs.get? name) = some (.value (.boolean false))

private theorem Node.Says.opcode_eq {Reads : Content → Term → Prop}
    (h : n.Says read Reads opcode shadow steps) :
    n.face.opcode = opcode ∧ n.face.shadow = shadow := by
  rw [h.face]
  exact foldl_onFace _ _

private theorem Node.Says.field_eq {Reads : Content → Term → Prop}
    (h : n.Says read Reads opcode shadow steps) (hnodup : (fieldNames steps).Nodup)
    (hmem : .field name field ∈ steps) : n.face.fields.get? name = some field := by
  rw [h.face]
  exact get?_foldl_onFace hnodup hmem _

private theorem Operation.ofOpcode?_layout (op : Operation) : ofOpcode? op.layout.1 = some op := by
  cases op with
  | join => decide
  | binary op => cases op <;> decide

namespace Graph

/-- Whether the blocks that are left before the end of a graph are enough to read an input. -/
def Within (g : Graph) (depth : Nat) (input : Option Input) : Prop :=
  ∀ id, input = some (.block id) → g.size ≤ depth + id

/-- Whether a complete content is read as a term wherever scripts hold it. -/
def Reads (scripts : List Block) (catalog : Catalog) (content : Content) (t : Term) : Prop :=
  content.fault? = none → ∀ depth input, Held.At (placedFrom 0 scripts) content.held? input →
    (ofScripts scripts).Within depth input →
    (ofScripts scripts).readWithin catalog depth input = some t

variable {scripts : List Block} {catalog : Catalog}

private theorem reads_literal (value : Value) :
    Reads scripts catalog (.literal value) (.value value) := by
  intro _ depth input hat _
  obtain rfl : input = some (.literal value) := hat
  cases depth <;> rfl

private theorem readWithin_none (g : Graph) (depth : Nat) :
    g.readWithin catalog depth none = some (.value (.boolean false)) := by
  cases depth <;> rfl

private theorem reads_nothing : Reads scripts catalog .nothing (.value (.boolean false)) := by
  intro _ depth input hat _
  obtain rfl : input = none := hat
  exact readWithin_none _ _

private theorem StandsAt.lt_of_input (hlink : ∀ b ∈ scripts, b.Linked) {b : Block} {id child : Nat}
    (h : StandsAt (placedFrom 0 scripts) b id) (hnode : (ofScripts scripts).nodes[id]? = some node)
    (hinput : node.inputs.get? name = some (.block child)) : id < child := by
  obtain ⟨p, hp, rfl, _⟩ := h
  have hp' := getElem?_ofScripts_iff.mpr ⟨p, hp, rfl, rfl⟩
  obtain rfl : p.node = node := Option.some.inj (hp'.symm.trans hnode)
  have hat : Held.At p.children (p.block.contents.held? (.input name)) (some (.block child)) := by
    rw [← hinput]
    exact Placed.at_refer? (linked_of_mem_placedFrom hlink hp).1.1 nofun
  cases hheld : p.block.contents.held? (.input name) with
  | none =>
    rw [hheld] at hat
    cases hat
  | some held =>
    rw [hheld] at hat
    cases held with
    | literal value => cases hat
    | block b =>
      obtain ⟨q, hq, _, hid⟩ := hat
      cases hid
      exact (Contents.mem_heads hq).1

private theorem StandsAt.tells (hlink : ∀ b ∈ scripts, b.Linked) {b : Block}
    (hnodup : (steps.filterMap link?).Nodup) (hok : assemble opcode steps shadow = ⟨some b, none⟩)
    {id : Nat} (h : StandsAt (placedFrom 0 scripts) b id)
    (hnode : (ofScripts scripts).nodes[id]? = some node) {depth : Nat}
    (hdepth : (ofScripts scripts).size ≤ depth + 1 + id) :
    node.Says ((ofScripts scripts).readWithin catalog depth)
    (Reads scripts catalog) opcode shadow steps := by
  have hfrom := assembleFrom_of_assemble hok
  have hwithin (name : String) : (ofScripts scripts).Within depth (node.refer? (.input name)) := by
    intro child hchild
    have hlt := h.lt_of_input hlink hnode hchild
    omega
  refine ⟨?_, fault?_of_assembleFrom hfrom, fun name content t hmem hreads =>
    ?_, fun name hname => ?_⟩
  · obtain ⟨node', hnode', hface, _⟩ := h.shows
    cases hnode.symm.trans hnode'
    rw [hface, face_of_assembleFrom hfrom]
  · have hat := h.at_input hlink hnode name
    rw [held?_assembleFrom hfrom hnodup hmem (Link.takes_input _ _)] at hat
    exact hreads (fault?_of_assembleFrom hfrom _ hmem) depth _ hat (hwithin name)
  · have hat := h.at_input hlink hnode name
    rw [held?_assembleFrom_eq_none hfrom hname] at hat
    rw [show node.inputs.get? name = none from hat]
    exact readWithin_none _ _

private theorem reads_block (hlink : ∀ b ∈ scripts, b.Linked) (hsteps : StepsApart steps)
    (hterm : ∀ node read, Node.Says node read (Reads scripts catalog) opcode shadow steps →
      node.term? read catalog = some t) :
      Reads scripts catalog (.assembly (assemble opcode steps shadow)) t := by
  intro hfault depth input hat hwithin
  obtain ⟨b, hb⟩ := LowerContext.exists_of_assemble hfault
  rw [hb] at hat
  obtain ⟨q, hq, rfl, rfl⟩ := hat
  have hnode := getElem?_ofScripts_iff.mpr ⟨q, hq, rfl, rfl⟩
  have hsize : q.id < (ofScripts scripts).size := (List.getElem?_eq_some_iff.mp hnode).1
  have hdepth := hwithin q.id rfl
  cases depth with
  | zero => omega
  | succ depth =>
    rw [readWithin, hnode, Option.bind_some]
    exact hterm _ _ (StandsAt.tells hlink hsteps.nodup hb ⟨q, hq, rfl, .inl rfl⟩ hnode hdepth)

section Reporters

variable (hlink : ∀ b ∈ scripts, b.Linked)

include hlink

private theorem reads_true :
    Reads scripts catalog (.ofSteps "operator_not" []) (.value (.boolean true)) := by
  refine reads_block hlink (.of_no_links (by simp)) fun node read htells => ?_
  obtain ⟨hcode, hshadow⟩ := htells.opcode_eq
  rw [Node.term?, hshadow, if_neg Bool.false_ne_true, if_pos hcode, htells.empty _ (by simp)]
  rfl

private theorem reads_not {content : Content} (h : Reads scripts catalog content t) :
    Reads scripts catalog (.ofSteps "operator_not" [.input "OPERAND" content]) t.negation := by
  refine reads_block hlink (.input _ _) fun node read htells => ?_
  obtain ⟨hcode, hshadow⟩ := htells.opcode_eq
  rw [Node.term?, hshadow, if_neg Bool.false_ne_true, if_pos hcode,
    htells.input _ content t mem_cons_self h]
  rfl

private theorem reads_operation (op : Operation) {left right : Content} {l r : Term}
    (hl : Reads scripts catalog left l) (hr : Reads scripts catalog right r) : Reads scripts catalog
      (.ofSteps op.layout.1 [.input op.layout.2.1 left, .input op.layout.2.2 right])
      (.operation op l r) := by
  have hne : op.layout.2.1 ≠ op.layout.2.2 := by
    cases op with
    | join => decide
    | binary op => cases op <;> decide
  refine reads_block hlink (.inputs hne _ _) fun node read htells => ?_
  obtain ⟨hcode, hshadow⟩ := htells.opcode_eq
  have hfree : op.layout.1 ∉ ["operator_not", "data_variable", "data_listcontents",
      "argument_reporter_boolean", "argument_reporter_string_number"] := by
    cases op with
    | join => decide
    | binary op => cases op <;> decide
  simp only [mem_cons, not_or] at hfree
  simp only [Node.term?, hshadow, hcode, hfree, Bool.false_eq_true, if_false,
    Operation.ofOpcode?_layout]
  rw [htells.input _ left l (by simp) hl, htells.input _ right r (by simp) hr]
  rfl

private theorem reads_variable (v : Variable) :
    Reads scripts catalog v.reporter (.variable v.name v.id) := by
  refine reads_block hlink (.of_no_links (by simp [entity, link?])) fun node read htells => ?_
  obtain ⟨hcode, hshadow⟩ := htells.opcode_eq
  have hfield := htells.field_eq (nodup_singleton _) (mem_singleton.mpr rfl)
  simp [Node.term?, hcode, hshadow, Node.entity?, hfield]

private theorem reads_list (l : ListVariable) :
    Reads scripts catalog l.reporter (.list l.name l.id) := by
  refine reads_block hlink (.of_no_links (by simp [entity, link?])) fun node read htells => ?_
  obtain ⟨hcode, hshadow⟩ := htells.opcode_eq
  have hfield := htells.field_eq (nodup_singleton _) (mem_singleton.mpr rfl)
  simp [Node.term?, hcode, hshadow, Node.entity?, hfield]

private theorem reads_param (type : DataType) (name : String) :
    Reads scripts catalog (.ofSteps type.reporterOpcode [.text "VALUE" name])
    (.param name (type = .boolean)) := by
  refine reads_block hlink (.of_no_links (by simp [text, link?])) fun node read htells => ?_
  obtain ⟨hcode, hshadow⟩ := htells.opcode_eq
  have hfield := htells.field_eq (nodup_singleton _) (mem_singleton.mpr rfl)
  unfold DataType.reporterOpcode at hcode
  split at hcode
  · rename_i htype
    simp [Node.term?, hcode, hshadow, hfield, htype]
  · rename_i htype
    simp [Node.term?, hcode, hshadow, hfield, htype]

private theorem reads_menu (opcode field text : String) :
    Reads scripts catalog (.assembly (assemble opcode [.text field text] true)) (.text text) := by
  refine reads_block hlink (.of_no_links (by simp [Step.text, Step.link?]))
    fun node read htells => ?_
  have hvalues : node.face.fields.values = [{ value := text }] := by
    rw [htells.face]
    rfl
  rw [Node.term?, htells.opcode_eq.2, if_pos rfl, Node.selection?, hvalues]

end Reporters

end Graph

/-- What reading relies on in a catalog: its reporters are no operators and no entities, each field
of a block has one meaning, and the kind of a block with its fixed fields tells the entry. What can
be read takes no arguments. -/
structure Catalog.Legible (c : Catalog) : Prop where
  free : ∀ entry ∈ c.reporting, entry.2.opcode ∉ reservedOpcodes
  fields : ∀ s ∈ c.signatures, (s.fields.map Prod.fst ++ s.slotFields).Nodup
  apart : ∀ entry ∈ c.reporting, ∀ other ∈ c.reporting, other.2.opcode = entry.2.opcode →
    (∀ f ∈ other.2.fields, f ∈ entry.2.fields ∨ f.1 ∈ entry.2.slotFields) →
      other.1 = entry.1 ∧ other.2.fields = entry.2.fields ∧
        other.2.params.map (·.slot) = entry.2.params.map (·.slot)
  readable : ∀ b ∈ c.reporters.values, ∀ s ∈ b.signatures, s.params = []

/-- The blocks of the robot's catalog can be told apart. -/
theorem Robot.legible : Robot.catalog.Legible :=
  ⟨by decide, by decide, by decide, by decide⟩

private theorem Catalog.mem_reporting_of_functions (hget : c.functions.get? name = some b)
    (hs : s ∈ b.signatures) : (name, s) ∈ c.reporting :=
  mem_flatMap.mpr ⟨(name, b), mem_append_right _ (Table.mem_entries_of_get? hget),
    mem_map_of_mem hs⟩

private theorem Catalog.mem_reporting_of_reporter? (hget : c.reporter? name = some s) :
    (name, s) ∈ c.reporting := by
  obtain ⟨b, hb, hs⟩ := Option.bind_eq_some_iff.mp hget
  exact mem_flatMap.mpr ⟨(name, b), mem_append_left _ (Table.mem_entries_of_get? hb),
    mem_map_of_mem (mem_of_head? hs)⟩

private theorem Catalog.mem_signatures_of_reporting {entry : String × Signature}
    (hentry : entry ∈ c.reporting) : entry.2 ∈ c.signatures := by
  obtain ⟨⟨name, b⟩, hb, hentry⟩ := mem_flatMap.mp hentry
  obtain ⟨s, hs, rfl⟩ := mem_map.mp hentry
  refine mem_append_left _ (mem_flatMap.mpr ⟨b, ?_, hs⟩)
  rcases mem_append.mp hb with hb | hb
  · simp [show b ∈ c.reporters.values from mem_map_of_mem hb]
  · simp [show b ∈ c.functions.values from mem_map_of_mem hb]

private theorem Signature.fieldNames_fieldSteps (s : Signature) :
    fieldNames s.fieldSteps = s.fields.map Prod.fst := by
  unfold fieldNames fieldSteps
  induction s.fields with
  | nil => rfl
  | cons f rest ih => exact congrArg (List.cons f.1) ih

/-- The fixed fields of a signature and the fields that its arguments set are apart. -/
theorem Signature.nodup_fieldNames (s : Signature) {more : List Step}
    (hmore : (fieldNames more).Sublist s.slotFields)
    (hnodup : (s.fields.map Prod.fst ++ s.slotFields).Nodup) :
    (fieldNames (s.fieldSteps ++ more)).Nodup := by
  refine hnodup.sublist ?_
  rw [fieldNames, filterMap_append, map_append, ← s.fieldNames_fieldSteps]
  exact (List.Sublist.refl _).append hmore

/-- A signature has these types. -/
theorem Builtin.types_of_resolve {types : List DataType} (h : b.resolve types = some s) :
    s.params.map (·.type) = types := by
  have hacc : s.accepts types = true := by simpa using find?_some h
  exact eq_of_beq hacc

private theorem length_of_mapM {α β : Type} {f : α → Option β} {l : List α} {l' : List β}
    (h : l.mapM f = some l') : l.length = l'.length := by
  induction l generalizing l' with
  | nil =>
    cases h
    rfl
  | cons a rest ih =>
    simp only [mapM_cons, Option.bind_eq_bind, Option.bind_eq_some_iff] at h
    obtain ⟨b, _, bs, hrest, heq⟩ := h
    cases heq
    exact congrArg Nat.succ (ih hrest)

section Entries

variable {catalog : Catalog} {name : String} {s : Signature} {n : Node}
  {read : Option Input → Option Term} {Reads : Content → Term → Prop} {more : List Step}

private theorem Catalog.Legible.entryOf?_eq (h : catalog.Legible)
    (hentry : (name, s) ∈ catalog.reporting)
    (htells : n.Says read Reads s.opcode false (s.fieldSteps ++ more))
    (hmore : (fieldNames more).Sublist s.slotFields) :
    ∃ other, catalog.entryOf? n.face = some (name, other) ∧ other.fields = s.fields ∧
      other.params.map (·.slot) = s.params.map (·.slot) := by
  have hnodup := s.nodup_fieldNames hmore (h.fields s (Catalog.mem_signatures_of_reporting hentry))
  have hshown : s.shownBy n.face = true := by
    rw [Signature.shownBy, Bool.and_eq_true, all_eq_true]
    refine ⟨decide_eq_true htells.opcode_eq.1.symm, fun f hf => decide_eq_true ?_⟩
    rw [htells.field_eq hnodup (mem_append_left _ (mem_map_of_mem hf))]
    rfl
  have hsome : (catalog.entryOf? n.face).isSome = true :=
    find?_isSome.mpr ⟨(name, s), hentry, hshown⟩
  obtain ⟨⟨other, so⟩, hfind⟩ := Option.isSome_iff_exists.mp hsome
  have hso := find?_some hfind
  rw [Signature.shownBy, Bool.and_eq_true, all_eq_true] at hso
  obtain ⟨hcode, hfields⟩ := hso
  have happart := h.apart _ hentry _ (mem_of_find?_eq_some hfind)
    ((of_decide_eq_true hcode).trans htells.opcode_eq.1) fun f hf => ?_
  · obtain ⟨rfl, hfields, hslots⟩ := happart
    exact ⟨so, hfind, hfields, hslots⟩
  -- A fixed field of the entry found is set by the block: it is fixed there, or it takes an
  -- argument.
  · obtain ⟨field, hget, hvalue⟩ := Option.map_eq_some_iff.mp (of_decide_eq_true (hfields f hf))
    rw [htells.face] at hget
    have hset := mem_of_mem_foldl_onFace (Table.mem_entries_of_get? hget)
    rcases mem_append.mp (hset.resolve_right nofun) with hfixed | harg
    · obtain ⟨⟨fixed, value⟩, hf', heq⟩ := mem_map.mp hfixed
      obtain ⟨hname, rfl⟩ := Step.field.inj heq
      obtain rfl : (fixed, value) = f := Prod.ext hname hvalue
      exact .inl hf'
    · refine .inr (hmore.subset (mem_map.mpr ⟨(f.1, field), ?_, rfl⟩))
      exact mem_filterMap.mpr ⟨_, harg, rfl⟩

private theorem Catalog.Legible.term?_eq (h : catalog.Legible)
    (hentry : (name, s) ∈ catalog.reporting)
    (htells : n.Says read Reads s.opcode false (s.fieldSteps ++ more))
    (hmore : (fieldNames more).Sublist s.slotFields) {args : List Term}
    (hargs : (s.params.map (·.slot)).mapM (n.argument? read) = some args) :
    n.term? read catalog = some (.builtin name s.fields args) := by
  obtain ⟨other, hother, hfields, hslots⟩ := h.entryOf?_eq hentry htells hmore
  obtain ⟨hcode, hshadow⟩ := htells.opcode_eq
  have hfree := h.free _ hentry
  rw [← hcode, reservedOpcodes, mem_append, not_or] at hfree
  obtain ⟨hent, hoperator⟩ := hfree
  have hnone : Operation.ofOpcode? n.face.opcode = none :=
    find?_eq_none.mpr fun op hop heq =>
      hoperator (mem_map.mpr ⟨op, hop, of_decide_eq_true heq⟩)
  simp only [mem_cons, not_or] at hent
  simp only [Node.term?, hshadow, hent, hnone, Bool.false_eq_true, if_false, Node.builtin?, hother,
    hslots, hfields, hargs, Option.bind_eq_bind, Option.bind_some]
  rfl

end Entries

/-- Whether a field or a menu for a parameter can show a value: a text, and one of the options if
there are some. -/
def ParamSpec.Offers (spec : ParamSpec) (value : Value) : Prop :=
  ∃ text, value = .string text ∧ ∀ options ∈ spec.options, text ∈ options

/-- Whether a content is a block that is no shadow, if it is complete. -/
def Content.IsReporter (content : Content) : Prop :=
  content.fault? = none → ∃ b, content = .assembly ⟨some b, none⟩ ∧ b.face.shadow = false

namespace LowerContext

variable {c : LowerContext}

/-- Whether an argument is what the slot of its parameter can show: a field or a menu offers the
value of an argument, what has no value is reported by a block, and what a list slot names is that
list. -/
def Suits (c : LowerContext) (spec : ParamSpec) (arg : Expr) : Prop :=
  match spec.slot with
  | .input _ => True
  | .field _ | .menu .. => (∀ value, arg.value? = some value → spec.Offers value) ∧
      (arg.value? = none → (c.lowerExpr arg).IsReporter)
  | .list _ => ∀ l, c.list? arg = some l → c.normal? arg = some (.list l.name l.id)

/-- Whether arguments are what the slots of their parameters can show. -/
def SuitsAll (c : LowerContext) (specs : List ParamSpec) (args : List Expr) : Prop :=
  ∀ p ∈ specs.zip args, c.Suits p.1 p.2

mutual

/-- Whether all arguments in an expression are what their slots can show. -/
def Suited (c : LowerContext) : Expr → Prop
  | .literal .. | .ident .. | .list .. => True
  | .group _ inner => Suited c inner
  | .not _ operand => Suited c operand
  | .cast _ _ operand => Suited c operand
  | .binary _ _ left right => Suited c left ∧ Suited c right
  | .call tag callee args => SuitedAll c args ∧ ∀ b s, c.catalog.functions.get? callee = some b →
      c.signature b args tag.span = .ok s → c.SuitsAll s.params args

/-- Whether all arguments in expressions are what their slots can show. -/
def SuitedAll (c : LowerContext) : List Expr → Prop
  | [] => True
  | e :: rest => Suited c e ∧ SuitedAll c rest

end

private theorem normal?_of_value? {value : Value} :
    ∀ {e : Expr}, e.value? = some value → c.normal? e = some (.value value)
  | .literal tag value', h => by
    cases h
    rw [normal?]
  | .group tag inner, h => by
    rw [normal?]
    exact normal?_of_value? (e := inner) h
  | .ident .., h | .call .., h | .cast .., h | .list .., h | .not .., h
  | .binary .., h => by cases h

private theorem fault?_lowerExpr_of_value? {value : Value} : ∀ {e : Expr}, e.value? = some value →
    (c.lowerExpr e).fault? = none
  | .literal tag value', _ => fault?_lowerExpr_literal tag value'
  | .group tag inner, h => by
    rw [lowerExpr]
    exact fault?_lowerExpr_of_value? (e := inner) h
  | .ident .., h | .call .., h | .cast .., h | .list .., h | .not .., h
  | .binary .., h => by cases h

private theorem fault?_lowerName_of_list {l : ListVariable} (hl : c.defs.lists.get? name = some l)
    (span : Span) : (c.lowerName name span).fault? = none := by
  unfold lowerName
  split
  · exact Content.fault?_ofSteps (by simp [text, fault?])
  · split
    · exact Content.fault?_ofSteps (by simp [entity, fault?])
    · rw [hl]
      exact Content.fault?_ofSteps (by simp [entity, fault?])

private theorem fault?_lowerExpr_of_list? {l : ListVariable} : ∀ {e : Expr}, c.list? e = some l →
    (c.lowerExpr e).fault? = none
  | .ident tag name, h => by
    rw [lowerExpr]
    exact fault?_lowerName_of_list h tag.span
  | .group tag inner, h => by
    rw [lowerExpr]
    exact fault?_lowerExpr_of_list? (e := inner) h
  | .literal .., h | .call .., h | .cast .., h | .list .., h | .not .., h
  | .binary .., h => by cases h

private theorem fault?_of_place (h : (c.place callee spec arg (c.lowerExpr arg)).fault? = none) :
    (c.lowerExpr arg).fault? = none := by
  unfold place at h
  split at h
  · exact h
  · split at h
    · rename_i hvalue
      exact fault?_lowerExpr_of_value? hvalue
    · cases h
  · split at h
    · rename_i hvalue
      exact fault?_lowerExpr_of_value? hvalue
    · exact h
  · split at h
    · rename_i hlist
      exact fault?_lowerExpr_of_list? hlist
    · cases h

private theorem place_field? (callee : String) (spec : ParamSpec) (arg : Expr) (content : Content) :
    ((c.place callee spec arg content).field?.map Prod.fst).toList.Sublist
    spec.slot.field?.toList := by
  unfold place
  split <;> rename_i hslot <;> rw [hslot]
  · exact .refl _
  · split
    · exact .refl _
    · exact nil_sublist _
  · split <;> exact .refl _
  · split
    · exact .refl _
    · exact nil_sublist _

/-- Arguments fill their fields. -/
theorem fieldNames_placeAll (callee : String) (specs : List ParamSpec) (args : List Expr) :
    (fieldNames (c.placeAll callee specs args)).Sublist (specs.filterMap (·.slot.field?)) := by
  induction specs generalizing args with
  | nil => simp [placeAll, fieldNames]
  | cons spec specs ih =>
    cases args with
    | nil => simp [placeAll, fieldNames]
    | cons arg args =>
      have hfirst := (place_field? (c := c) callee spec arg (c.lowerExpr arg)).append (ih args)
      rw [placeAll, fieldNames, filterMap_cons, filterMap_cons]
      cases hstep : (c.place callee spec arg (c.lowerExpr arg)).field? <;>
        cases hslot : spec.slot.field? <;> rw [hstep, hslot] at hfirst <;> exact hfirst

/-- Every argument has a step. -/
theorem mem_placeAll (h : (spec, arg) ∈ specs.zip args) :
    c.place callee spec arg (c.lowerExpr arg) ∈ c.placeAll callee specs args := by
  induction specs generalizing args with
  | nil => cases h
  | cons first specs ih =>
    cases args with
    | nil => cases h
    | cons arg' args =>
      rw [placeAll]
      rcases mem_cons.mp h with heq | hrest
      · cases heq
        exact mem_cons_self
      · exact mem_cons_of_mem _ (ih hrest)

private theorem fault?_of_placeAll (hlen : specs.length = args.length)
    (h : ∀ step ∈ c.placeAll callee specs args, step.fault? = none) :
    ∀ arg ∈ args, (c.lowerExpr arg).fault? = none := by
  intro arg harg
  obtain ⟨i, hi, rfl⟩ := getElem_of_mem harg
  have hzip : (specs[i], args[i]) ∈ specs.zip args := by
    rw [← getElem_zip (i := i) (h := by simp [hlen, hi])]
    exact getElem_mem _
  exact fault?_of_place (h _ (mem_placeAll hzip))

private theorem argument?_eq {scripts : List Block} (hlink : ∀ b ∈ scripts, b.Linked)
    (htells : n.Says read (Graph.Reads scripts c.catalog) opcode shadow steps)
    (hnodup : (fieldNames steps).Nodup) (hmem : c.place callee spec arg (c.lowerExpr arg) ∈ steps)
    (hsuits : c.Suits spec arg) (hnormal : c.normal? arg = some t)
    (hreads : Graph.Reads scripts c.catalog (c.lowerExpr arg) t) :
    n.argument? read spec.slot = some t := by
  have hfault := htells.fault _ hmem
  have hvalue {value : Value} (h : arg.value? = some value) : t = .value value :=
    Option.some.inj (hnormal.symm.trans (normal?_of_value? h))
  unfold Suits at hsuits
  unfold place at hmem hfault
  split at hmem
  · rename_i hslot
    rw [hslot, Node.argument?]
    exact htells.input _ _ _ hmem hreads
  · rename_i hslot
    rw [hslot] at hsuits hfault ⊢
    split at hmem
    · rename_i value harg
      obtain ⟨text, rfl, _⟩ := hsuits.1 value harg
      rw [Node.argument?, htells.field_eq hnodup hmem, hvalue harg]
      rfl
    · rename_i harg
      rw [harg] at hfault
      cases hfault
  · rename_i hslot
    rw [hslot] at hsuits ⊢
    split at hmem
    · rename_i value harg
      obtain ⟨text, rfl, _⟩ := hsuits.1 value harg
      rw [Node.argument?, hvalue harg]
      exact htells.input _ _ _ hmem (Graph.reads_menu hlink _ _ _)
    · exact htells.input _ _ _ hmem hreads
  · rename_i hslot
    rw [hslot] at hsuits hfault ⊢
    split at hmem
    · rename_i l hlist
      rw [Node.argument?, Node.entity?, htells.field_eq hnodup hmem]
      exact (hsuits l hlist).symm.trans hnormal
    · rename_i hlist
      rw [hlist] at hfault
      cases hfault

private theorem mapM_argument?_eq {scripts : List Block} (hlink : ∀ b ∈ scripts, b.Linked)
    (htells : n.Says read (Graph.Reads scripts c.catalog) opcode shadow steps)
    (hnodup : (fieldNames steps).Nodup)
    (hlen : specs.length = args.length) (hmem : c.placeAll callee specs args ⊆ steps)
    (hsuits : c.SuitsAll specs args) (hargs : List.Forall₂ (fun arg t => c.normal? arg = some t ∧
      Graph.Reads scripts c.catalog (c.lowerExpr arg) t) args ts) :
    (specs.map (·.slot)).mapM (n.argument? read) = some ts := by
  induction hargs generalizing specs with
  | nil =>
    obtain rfl := length_eq_zero_iff.mp hlen
    rfl
  | @cons arg t args ts hfirst _ ih =>
    cases specs with
    | nil => cases hlen
    | cons spec specs =>
      rw [placeAll, cons_subset] at hmem
      have hspec :=
        argument?_eq hlink htells hnodup hmem.1 (hsuits (spec, arg) mem_cons_self) hfirst.1 hfirst.2
      have hrest := ih (Nat.succ.inj hlen) hmem.2 fun p hp => hsuits p (mem_cons_of_mem _ hp)
      rw [map_cons, mapM_cons, hspec, hrest]
      rfl

/-- Whether what is lowered in a context can be read back from the graph of some scripts. -/
structure Readable (c : LowerContext) (scripts : List Block) : Prop where
  linked : ∀ b ∈ scripts, b.Linked
  legible : c.catalog.Legible
  apart : c.InputsApart

section Expressions

variable {scripts : List Block} (hread : c.Readable scripts)

include hread

private theorem reads_reporter (hrep : c.catalog.reporter? name = some s) :
    Graph.Reads scripts c.catalog s.reporter (.builtin name s.fields []) := by
  obtain ⟨b, hb, hs⟩ := Option.bind_eq_some_iff.mp hrep
  have hparams := hread.legible.readable b (Table.mem_values_of_get? hb) s (mem_of_head? hs)
  refine Graph.reads_block hread.linked (.of_no_links (fieldSteps_link? s))
    fun node read htells => ?_
  rw [← append_nil s.fieldSteps] at htells
  refine hread.legible.term?_eq (Catalog.mem_reporting_of_reporter? hrep) htells (nil_sublist _) ?_
  rw [hparams]
  rfl

private theorem reads_lowerName (hfault : (c.lowerName name span).fault? = none) :
    ∃ t, c.nameTerm? name = some t ∧ Graph.Reads scripts c.catalog (c.lowerName name span) t := by
  cases hparam : c.param? name with
  | some param =>
    simp only [lowerName, nameTerm?, hparam]
    exact ⟨_, rfl, Graph.reads_param hread.linked _ _⟩
  | none =>
  cases hscalar : c.defs.scalars.get? name with
  | some v =>
    simp only [lowerName, nameTerm?, hparam, hscalar]
    exact ⟨_, rfl, Graph.reads_variable hread.linked v⟩
  | none =>
  cases hlist : c.defs.lists.get? name with
  | some l =>
    simp only [lowerName, nameTerm?, hparam, hscalar, hlist]
    exact ⟨_, rfl, Graph.reads_list hread.linked l⟩
  | none =>
  cases hconst : (c.defs.constants.get? name).bind (·.value) with
  | some value =>
    simp only [lowerName, nameTerm?, hparam, hscalar, hlist, hconst]
    exact ⟨_, rfl, Graph.reads_literal value⟩
  | none =>
  cases hrep : c.catalog.reporter? name with
  | none =>
    simp only [lowerName, hparam, hscalar, hlist, hconst, hrep] at hfault
    cases hfault
  | some s =>
    simp only [lowerName, nameTerm?, hparam, hscalar, hlist, hconst, hrep]
    exact ⟨_, rfl, reads_reporter hread hrep⟩

private theorem reads_call (hget : c.catalog.functions.get? callee = some b)
    (hs : s ∈ b.signatures) (hlen : s.params.length = args.length)
    (hsuits : c.SuitsAll s.params args) (hargs : List.Forall₂ (fun arg t => c.normal? arg = some t ∧
      Graph.Reads scripts c.catalog (c.lowerExpr arg) t) args ts) : Graph.Reads scripts c.catalog
      (.ofSteps s.opcode (s.fieldSteps ++ c.placeAll callee s.params args))
      (.builtin callee s.fields ts) := by
  have hsig := Catalog.mem_signatures_of_functions hget hs
  have hsub := fieldNames_placeAll (c := c) callee s.params args
  refine Graph.reads_block hread.linked
    (signatureSteps_apart hread.apart hsig callee (.refl _) args) fun node read htells => ?_
  have hnodup : (fieldNames (s.fieldSteps ++ c.placeAll callee s.params args)).Nodup :=
    s.nodup_fieldNames hsub (hread.legible.fields s hsig)
  exact hread.legible.term?_eq (Catalog.mem_reporting_of_functions hget hs) htells hsub
    (mapM_argument?_eq hread.linked htells hnodup hlen (subset_append_right _ _) hsuits hargs)

end Expressions

/-- Types tell the signature. -/
theorem exists_types_of_signature_ok (h : c.signature b args span = .ok s) :
    ∃ types, args.mapM (fun arg => c.types.get? arg.id) = some types ∧ b.resolve types = some s ∧
      s.params.length = args.length := by
  unfold signature at h
  split at h
  · cases h
  · rename_i types htypes
    split at h
    · rename_i hresolve
      cases h
      refine ⟨types, htypes, hresolve, ?_⟩
      have hparams := Builtin.types_of_resolve hresolve
      rw [← length_map (·.type), hparams]
      exact (length_of_mapM htypes).symm
    · cases h

mutual

private theorem reads_lowerExpr {scripts : List Block} (hread : c.Readable scripts) :
    ∀ {e : Expr}, c.Suited e → (c.lowerExpr e).fault? = none → ∃ t, c.normal? e = some t ∧
      Graph.Reads scripts c.catalog (c.lowerExpr e) t
  | .literal tag (.number n), _, _ | .literal tag (.string text), _, _ => by
    rw [normal?, lowerExpr]
    exact ⟨_, rfl, Graph.reads_literal _⟩
    all_goals nofun
  | .literal tag (.boolean true), _, _ => by
    rw [normal?, lowerExpr]
    exact ⟨_, rfl, Graph.reads_true hread.linked⟩
  | .literal tag (.boolean false), _, _ => by
    rw [normal?, lowerExpr]
    exact ⟨_, rfl, Graph.reads_nothing⟩
  | .group tag inner, hsuit, hfault => by
    rw [Suited] at hsuit
    rw [normal?, lowerExpr] at *
    exact reads_lowerExpr hread hsuit hfault
  | .ident tag name, _, hfault => by
    rw [lowerExpr] at hfault
    rw [normal?, lowerExpr]
    exact reads_lowerName hread hfault
  | .not tag operand, hsuit, hfault => by
    rw [Suited] at hsuit
    rw [lowerExpr] at hfault
    have hoperand := fault?_of_ofSteps hfault _ mem_cons_self
    obtain ⟨t, ht, hreads⟩ := reads_lowerExpr hread hsuit hoperand
    rw [normal?, lowerExpr, ht]
    exact ⟨_, rfl, Graph.reads_not hread.linked hreads⟩
  | .binary tag op left right, hsuit, hfault => by
    rw [Suited] at hsuit
    rw [lowerExpr] at hfault
    cases htype : c.types.get? tag.id with
    | none =>
      rw [htype] at hfault
      cases hfault
    | some type =>
      rw [htype] at hfault
      have hleft := fault?_of_ofSteps hfault _ mem_cons_self
      have hright := fault?_of_ofSteps hfault _ (mem_cons_of_mem _ mem_cons_self)
      obtain ⟨l, hl, hreadsl⟩ := reads_lowerExpr hread hsuit.1 hleft
      obtain ⟨r, hr, hreadsr⟩ := reads_lowerExpr hread hsuit.2 hright
      rw [normal?, lowerExpr, hl, hr, htype]
      have hreads := Graph.reads_operation hread.linked (op.operation type) hreadsl hreadsr
      rw [BinaryOp.layout_operation] at hreads
      exact ⟨_, rfl, hreads⟩
  | .cast tag target operand, hsuit, hfault => by
    rw [Suited] at hsuit
    rw [lowerExpr] at hfault
    cases hsrc : c.types.get? operand.id with
    | none =>
      rw [hsrc] at hfault
      cases hfault
    | some source =>
      rw [hsrc] at hfault
      dsimp only at hfault
      cases hlayout : castLayout? source target with
      | none =>
        rw [hlayout] at hfault
        obtain ⟨t, ht, hreads⟩ := reads_lowerExpr hread hsuit hfault
        rw [normal?, lowerExpr, hsrc, ht]
        dsimp only
        rw [hlayout]
        exact ⟨_, congrArg some (Term.cast_of_castLayout?_eq_none hlayout t), hreads⟩
      | some layout =>
        obtain ⟨op, type, neutral⟩ := layout
        rw [hlayout] at hfault
        have hoperand := fault?_of_ofSteps hfault _ mem_cons_self
        obtain ⟨t, ht, hreads⟩ := reads_lowerExpr hread hsuit hoperand
        rw [normal?, lowerExpr, hsrc, ht]
        dsimp only
        rw [hlayout]
        have hcast :=
          Graph.reads_operation hread.linked (op.operation type) hreads
            (Graph.reads_literal neutral)
        rw [BinaryOp.layout_operation] at hcast
        exact ⟨_, congrArg some (Term.cast_of_castLayout? hlayout t), hcast⟩
  | .call tag callee args, hsuit, hfault => by
    rw [Suited] at hsuit
    obtain ⟨hall, hsuits⟩ := hsuit
    rw [lowerExpr] at hfault
    cases hget : c.catalog.functions.get? callee with
    | none =>
      rw [hget] at hfault
      cases hfault
    | some b =>
      rw [hget] at hfault
      dsimp only at hfault
      cases hsig : c.signature b args tag.span with
      | error d =>
        rw [hsig] at hfault
        cases hfault
      | ok s =>
        rw [hsig] at hfault
        obtain ⟨types, htypes, hresolve, hlen⟩ := exists_types_of_signature_ok hsig
        have hsteps := fault?_of_ofSteps hfault
        have hargs : ∀ arg ∈ args, (c.lowerExpr arg).fault? = none :=
          fault?_of_placeAll hlen fun step hstep => hsteps step (mem_append_right _ hstep)
        obtain ⟨ts, hts, hreads⟩ := reads_lowerAll hread hall hargs
        rw [normal?, lowerExpr, hget]
        dsimp only
        rw [hsig]
        refine ⟨.builtin callee s.fields ts, ?_, reads_call hread hget
          (mem_of_signature_ok hsig) hlen (hsuits b s hget hsig) hreads⟩
        simp [htypes, hresolve, hts]
  | .list tag items, _, hfault => by
    rw [lowerExpr] at hfault
    cases hfault

private theorem reads_lowerAll {scripts : List Block} (hread : c.Readable scripts) :
    ∀ {es : List Expr}, c.SuitedAll es → (∀ e ∈ es, (c.lowerExpr e).fault? = none) → ∃ ts,
      c.normalAll? es = some ts ∧ List.Forall₂
      (fun e t => c.normal? e = some t ∧ Graph.Reads scripts c.catalog (c.lowerExpr e) t) es ts
  | [], _, _ => ⟨[], by rw [normalAll?], .nil⟩
  | e :: rest, hsuit, hfault => by
    rw [SuitedAll] at hsuit
    rw [forall_mem_cons] at hfault
    obtain ⟨t, ht, hreads⟩ := reads_lowerExpr hread hsuit.1 hfault.1
    obtain ⟨ts, hts, hrest⟩ := reads_lowerAll hread hsuit.2 hfault.2
    exact ⟨t :: ts, by rw [normalAll?, ht, hts]; rfl, .cons ⟨ht, hreads⟩ hrest⟩

end

end LowerContext

end

/-!
## Programs are read back

The block of a statement has its expressions in its slots. All of them are read back as their normal
forms, and so is the parameter of a handler.
-/

open List

variable {c c' : LowerContext} {body : List Stmt} {stmt : Stmt} {name callee : String}
  {args : List Expr}
  {value : Expr} {s : Signature} {node : Node} {start : Option Input} {content : Content}
  {g : Graph} {id : Nat}

namespace LowerContext

mutual

/-- Whether all arguments in a statement are what their slots can show. -/
def SuitedStmt (c : LowerContext) : Stmt → Prop
  | .varDecl .. | .constDecl .. => True
  | .funcDecl name _ body _ _ => ∀ f, c.defs.functions.get? name = some f →
      SuitedBody { c with function := some f } body
  | .event kind name param body _ _ => (∀ e ∈ param, c.Suited e) ∧ (kind ≠ .custom → ∀ s,
      c.catalog.hat? name = some s → (s.params.take 1).length = param.toList.length ∧
        c.SuitsAll (s.params.take 1) param.toList) ∧ SuitedBody c body
  | .call name args span => c.SuitedAll args ∧ (c.defs.functions.get? name = none →
      c.defs.events.get? name = none → ∀ b s, c.catalog.statements.get? name = some b →
      c.signature b args span = .ok s → c.SuitsAll s.params args)
  | .assign _ _ value _ => c.Suited value
  | .branch condition thenBody elseBody _ =>
    c.Suited condition ∧ SuitedBody c thenBody ∧ SuitedBody c elseBody
  | .loop .forever body _ => SuitedBody c body
  | .loop (.times count) body _ => c.Suited count ∧ SuitedBody c body
  | .loop (.until condition) body _ => c.Suited condition ∧ SuitedBody c body

/-- Whether all arguments in statements are what their slots can show. -/
def SuitedBody (c : LowerContext) : List Stmt → Prop
  | [] => True
  | stmt :: rest => SuitedStmt c stmt ∧ SuitedBody c rest

end

/-- Statements of a body suit. -/
theorem SuitedBody.of_mem (h : c.SuitedBody body) : ∀ stmt ∈ body, c.SuitedStmt stmt := by
  induction body with
  | nil => simp
  | cons stmt rest ih =>
    rw [SuitedBody] at h
    exact forall_mem_cons.mpr ⟨h.1, ih h.2⟩

private theorem mem_of_mem_emitted (h : stmt ∈ c.emitted body) : stmt ∈ body := by
  induction body with
  | nil => cases h
  | cons first rest ih =>
    rw [emitted] at h
    split at h
    · exact mem_cons_of_mem _ (ih h)
    · split at h
      · exact mem_singleton.mp h ▸ mem_cons_self
      · exact mem_cons.mpr ((mem_cons.mp h).imp_right ih)

private theorem isDeclaration_of_mem_emitted (h : stmt ∈ c.emitted body) :
    stmt.isDeclaration = false := by
  induction body with
  | nil => cases h
  | cons first rest ih =>
    rw [emitted] at h
    split at h
    · exact ih h
    · rename_i hfirst
      split at h
      · rw [mem_singleton.mp h]
        exact Bool.eq_false_iff.mpr hfirst
      · rcases mem_cons.mp h with rfl | h
        · exact Bool.eq_false_iff.mpr hfirst
        · exact ih h

private theorem SuitedAll.of_mem {es : List Expr} (h : c.SuitedAll es) : ∀ e ∈ es, c.Suited e := by
  induction es with
  | nil => simp
  | cons e rest ih =>
    rw [SuitedAll] at h
    exact forall_mem_cons.mpr ⟨h.1, ih h.2⟩

end LowerContext

/-- Whether a block has terms in its slots. -/
def Node.Has (n : Node) (read : Option Input → Option Term) (terms : List (Slot × Option Term)) :
    Prop :=
  ∀ p ∈ terms, ∃ t, p.2 = some t ∧ n.argument? read p.1 = some t

namespace LowerContext

section Statements

variable {c : LowerContext} {scripts : List Block} (hread : c.Readable scripts) {n : Node}
  {read : Option Input → Option Term} {opcode : String} {steps : List Step}
  (htells : n.Says read (Graph.Reads scripts c.catalog) opcode false steps)

include hread htells

private theorem has_expr {e : Expr} (hsuit : c.Suited e)
    (hmem : .input name (c.lowerExpr e) ∈ steps) : n.Has read [(.input name, c.normal? e)] := by
  obtain ⟨t, ht, hreads⟩ := reads_lowerExpr hread hsuit (htells.fault _ hmem)
  intro p hp
  rw [mem_singleton.mp hp]
  exact ⟨t, ht, htells.input _ _ _ hmem hreads⟩

omit hread in
private theorem has_content {t : Option Term} (hmem : .input name content ∈ steps)
    (hreads : content.fault? = none → ∃ t', t = some t' ∧
    Graph.Reads scripts c.catalog content t') : n.Has read [(.input name, t)] := by
  obtain ⟨t', rfl, ht⟩ := hreads (htells.fault _ hmem)
  intro p hp
  rw [mem_singleton.mp hp]
  exact ⟨t', rfl, htells.input _ _ _ hmem ht⟩

private theorem has_arguments (hnodup : (fieldNames steps).Nodup) {specs : List ParamSpec}
    (hmem : c.placeAll callee specs args ⊆ steps) (hsuit : ∀ arg ∈ args, c.Suited arg)
    (hsuits : c.SuitsAll specs args) : n.Has read (c.argumentTerms specs args) := by
  intro p hp
  obtain ⟨⟨spec, arg⟩, hzip, rfl⟩ := mem_map.mp hp
  have hplace : c.place callee spec arg (c.lowerExpr arg) ∈ steps := hmem (mem_placeAll hzip)
  obtain ⟨t, ht, hreads⟩ := reads_lowerExpr hread
    (hsuit arg (of_mem_zip hzip).2) (fault?_of_place (htells.fault _ hplace))
  exact ⟨t, ht, argument?_eq hread.linked htells hnodup hplace (hsuits _ hzip) ht hreads⟩

omit htells in
private theorem reads_combine {op : BinaryOp} {type : DataType} {current : Content} {t : Term}
    (hreads : Graph.Reads scripts c.catalog current t) (hsuit : c.Suited value)
    (hfault : (c.combine op type current value).fault? = none) :
    ∃ t', c.combined? op type t value = some t' ∧
      Graph.Reads scripts c.catalog (c.combine op type current value) t' := by
  have hvalue := fault?_of_ofSteps hfault _ (mem_cons_of_mem _ mem_cons_self)
  obtain ⟨tv, htv, hreadsv⟩ := reads_lowerExpr hread hsuit hvalue
  have hcombined := Graph.reads_operation hread.linked (op.operation type) hreads hreadsv
  rw [BinaryOp.layout_operation] at hcombined
  refine ⟨_, ?_, hcombined⟩
  rw [combined?, htv]
  rfl

omit htells in
private theorem reads_negated (hsuit : c.Suited value) (hfault : (c.negated value).fault? = none) :
    ∃ t, c.opposite? value = some t ∧ Graph.Reads scripts c.catalog (c.negated value) t := by
  have hproduct
      (hproduct : (Content.ofSteps "operator_multiply" [.input "NUM1" (.literal (.number (-1.0))),
      .input "NUM2" (c.lowerExpr value)]).fault? = none) : ∃ tv, c.normal? value = some tv ∧
        Graph.Reads scripts c.catalog (Content.ofSteps "operator_multiply"
          [.input "NUM1" (.literal (.number (-1.0))), .input "NUM2" (c.lowerExpr value)])
          (.operation (.binary .mul) (.value (.number (-1.0))) tv) := by
    have hinner := fault?_of_ofSteps hproduct _ (mem_cons_of_mem _ mem_cons_self)
    obtain ⟨tv, htv, hreadsv⟩ := reads_lowerExpr hread hsuit hinner
    exact ⟨tv, htv, Graph.reads_operation hread.linked (.binary .mul)
      (Graph.reads_literal _) hreadsv⟩
  match hvalue : value.value? with
  | some (.number n) =>
    simp only [negated, opposite?, hvalue]
    exact ⟨_, rfl, Graph.reads_literal _⟩
  | none | some (.string _) | some (.boolean _) =>
    simp only [negated, hvalue] at hfault
    simp only [negated, opposite?, hvalue]
    obtain ⟨tv, htv, hreads⟩ := hproduct hfault
    exact ⟨_, by rw [htv]; rfl, hreads⟩

end Statements

section Blocks

variable {c : LowerContext} {scripts : List Block} (hread : c.Readable scripts)

/-- Whether an assembly becomes a block that has terms in its slots. -/
def Shows (scripts : List Block) (catalog : Catalog) (a : Assembly)
    (terms : List (Slot × Option Term)) : Prop :=
  a.fault = none → ∃ opcode steps, a = assemble opcode steps ∧
    (steps.filterMap Step.link?).Nodup ∧ ∀ n read,
      Node.Says n read (Graph.Reads scripts catalog) opcode false steps → n.Has read terms

private theorem Shows.of_apart {a : Assembly} {terms : List (Slot × Option Term)} {opcode : String}
    {steps : List Step} (ha : a = assemble opcode steps) (hsteps : StepsApart steps)
    (hhas : ∀ n read, Node.Says n read (Graph.Reads scripts c.catalog) opcode false steps →
      n.Has read terms) : Shows scripts c.catalog a terms :=
  fun _ => ⟨opcode, steps, ha, hsteps.nodup, hhas⟩

include hread

private theorem shows_lowerBuiltin (hs : s ∈ c.catalog.signatures)
    (hsuit : ∀ arg ∈ args, c.Suited arg) (hsuits : c.SuitsAll s.params args) :
    Shows scripts c.catalog (c.lowerBuiltin s callee args) (c.argumentTerms s.params args) := by
  refine .of_apart rfl (signatureSteps_apart hread.apart hs callee (.refl _) args)
    fun n read htells => ?_
  exact has_arguments hread htells
    (s.nodup_fieldNames (fieldNames_placeAll callee s.params args) (hread.legible.fields s hs))
    (subset_append_right _ _) hsuit hsuits

private theorem shows_lowerFunctionCall {f : Function} (hf : c.defs.functions.get? name = some f)
    (hsuit : ∀ arg ∈ args, c.Suited arg) : Shows scripts c.catalog (c.lowerFunctionCall f args)
      ((f.params.zip args).map fun (param, arg) => (.input param.id.text, c.normal? arg)) := by
  refine .of_apart rfl (functionCallSteps_apart hread.apart hf args) fun n read htells p hp => ?_
  obtain ⟨⟨param, arg⟩, hzip, rfl⟩ := mem_map.mp hp
  exact has_expr hread htells (hsuit arg (of_mem_zip hzip).2)
    (mem_append_left _ (mem_map.mpr ⟨_, hzip, rfl⟩)) _ mem_cons_self

private theorem shows_lowerCall {span : Span} (hsuit : c.SuitedStmt (.call name args span)) :
    Shows scripts c.catalog (c.lowerCall name args span).1 (c.callTerms name args span) := by
  rw [SuitedStmt] at hsuit
  obtain ⟨hall, hsuits⟩ := hsuit
  unfold lowerCall callTerms
  cases hf : c.defs.functions.get? name with
  | some f => exact shows_lowerFunctionCall hread hf hall.of_mem
  | none =>
  cases hevent : c.defs.events.get? name with
  | some event =>
    rw [if_pos (by simp [Table.contains, hevent])]
    exact @Shows.of_apart c scripts (lowerBroadcast event name) _ _ _ rfl (.input _ _)
      fun _ _ _ p hp => by cases hp
  | none =>
  rw [if_neg (by simp [Table.contains, hevent])]
  cases hb : c.catalog.statements.get? name with
  | none => rintro ⟨⟩
  | some b =>
    dsimp only
    cases hs : c.signature b args span with
    | error d => rintro ⟨⟩
    | ok s =>
      exact shows_lowerBuiltin hread
        (Catalog.mem_signatures_of_statements hb (mem_of_signature_ok hs)) hall.of_mem
        (hsuits hf hevent b s hb hs)

private theorem shows_assignVariable (v : Variable) (op : AssignOp) (hsuit : c.Suited value) :
    Shows scripts c.catalog (c.assignVariable v op value)
    [(.input "VALUE", c.variableTerm? v op value)] := by
  have htarget : ∀ step ∈ [Step.entity "VARIABLE" v.name v.id], step.link? = none := by
    simp [Step.entity, Step.link?]
  unfold assignVariable variableTerm?
  split
  · refine .of_apart rfl (.no_links_append htarget (.input _ _)) fun n read htells => ?_
    exact has_expr hread htells hsuit (by simp)
  · cases op.binary? with
    | none =>
      refine .of_apart rfl (.no_links_append htarget (.input _ _)) fun n read htells => ?_
      exact has_expr hread htells hsuit (by simp)
    | some binary =>
      refine .of_apart rfl (.no_links_append htarget (.input _ _)) fun n read htells => ?_
      exact has_content htells (mem_cons_of_mem _ mem_cons_self)
        (reads_combine hread (Graph.reads_variable hread.linked v) hsuit)

omit hread in
private theorem shows_propertyBlock {t : Option Term}
    (hreads : content.fault? = none → ∃ t', t = some t' ∧ Graph.Reads scripts c.catalog content t')
    (span : Span) : Shows scripts c.catalog (propertyBlock s content span) (firstTerm s t) := by
  intro hfault
  obtain ⟨b, hb⟩ := exists_of_assemble hfault
  have hsteps := fault?_of_assembleFrom (assembleFrom_of_assemble hb)
  have hvalue := hsteps _ (mem_append_right _ mem_cons_self)
  unfold valueStep at hvalue
  unfold propertyBlock firstTerm valueStep
  split at hvalue
  · rename_i name hslot
    obtain ⟨spec, hspec, heq⟩ := Option.map_eq_some_iff.mp hslot
    rw [show s.params.head?.toList.map (fun spec => (spec.slot, t)) = [(.input name, t)] by
      simp [hspec, heq]]
    have hapart := StepsApart.no_links_append (fieldSteps_link? s) (.input name content)
    refine ⟨_, _, rfl, hapart.nodup, fun n read htells => ?_⟩
    exact has_content htells (mem_append_right _ mem_cons_self) hreads
  · cases hvalue

private theorem shows_readAndSet (property : Property) (target : String) (hsuit : c.Suited value)
    (span : Span) (binary : BinaryOp) : Shows scripts c.catalog
      (match c.catalog.reporter? target with
        | none => .failed (.unreadableTarget target) span
        | some reporter =>
          propertyBlock property.set (c.combine binary property.type reporter.reporter value) span)
      (firstTerm property.set ((c.catalog.reporter? target).bind fun reporter =>
        c.combined? binary property.type (.builtin target reporter.fields []) value)) := by
  cases hrep : c.catalog.reporter? target with
  | none => rintro ⟨⟩
  | some reporter =>
    refine shows_propertyBlock (c := c) (s := property.set) ?_ span
    exact reads_combine hread (reads_reporter hread hrep) hsuit

private theorem shows_assignProperty (hcomp : c.catalog.Complete) {property : Property}
    {target : String} (hget : c.catalog.properties.get? target = some property) (op : AssignOp)
    (hsuit : c.Suited value) (span : Span) :
    Shows scripts c.catalog (c.assignProperty property target op value span)
      (c.propertyTerms property target op value) := by
  have hset : Shows scripts c.catalog (c.lowerBuiltin property.set target [value])
      (c.argumentTerms property.set.params [value]) := by
    refine shows_lowerBuiltin hread (Catalog.mem_signatures_of_set hget)
      (forall_mem_singleton.mpr hsuit) fun p hp => ?_
    obtain ⟨name, hslot⟩ := Signature.exists_slot_of_firstInput?
      (hcomp.inputs property (Table.mem_values_of_get? hget) property.set mem_cons_self)
    cases hparams : property.set.params with
    | nil => simp [hparams] at hp
    | cons spec specs =>
      rw [hparams, zip_cons_cons, zip_nil_right] at hp
      rw [hparams] at hslot
      have hinput : spec.slot = .input name := by simpa using hslot
      rw [mem_singleton.mp hp, Suits]
      simp [hinput]
  have hadd (change : Signature) :
      Shows scripts c.catalog (propertyBlock change (c.lowerExpr value) span)
      (firstTerm change (c.normal? value)) :=
    shows_propertyBlock (reads_lowerExpr hread hsuit) span
  have hsub (change : Signature) :
      Shows scripts c.catalog (propertyBlock change (c.negated value) span)
      (firstTerm change (c.opposite? value)) :=
    shows_propertyBlock (reads_negated hread hsuit) span
  have hother := shows_readAndSet hread property target hsuit span
  unfold assignProperty propertyTerms
  cases op with
  | set => exact hset
  | add =>
    cases property.change? with
    | none => exact hother .add
    | some change => exact hadd change
  | sub =>
    cases property.change? with
    | none => exact hother .sub
    | some change => exact hsub change
  | mul => exact hother .mul
  | div => exact hother .div
  | mod => exact hother .mod

private theorem shows_lowerStmt (hcomp : c.catalog.Complete) (hsuit : c.SuitedStmt stmt)
    (hstmt : stmt.isDeclaration = false) :
    Shows scripts c.catalog (c.lowerStmt stmt).1 (c.terms stmt) := by
  cases stmt with
  | varDecl | constDecl | funcDecl | event => cases hstmt
  | call name args span =>
    rw [lowerStmt, terms]
    exact shows_lowerCall hread hsuit
  | assign target op value span =>
    rw [SuitedStmt] at hsuit
    rw [lowerStmt, terms]
    unfold lowerAssign
    cases hv : c.defs.scalars.get? target with
    | some v => exact shows_assignVariable hread v op hsuit
    | none =>
    cases hp : c.catalog.properties.get? target with
    | some property => exact shows_assignProperty hread hcomp hp op hsuit span
    | none => exact nofun
  | branch condition thenBody elseBody span =>
    rw [SuitedStmt] at hsuit
    obtain ⟨opcode, steps, hlower, hsteps, hmem, _⟩ :=
      lowerBranch_steps condition thenBody elseBody span
    refine .of_apart hlower hsteps fun n read htells => ?_
    rw [terms]
    exact has_expr hread htells hsuit.1 hmem
  | loop kind body span =>
    rw [lowerStmt]
    refine .of_apart rfl (lowerLoop_apart kind _) fun n read htells => ?_
    cases kind with
    | forever =>
      rw [terms]
      exact fun p hp => by cases hp
    | times count | «until» condition =>
      rw [SuitedStmt] at hsuit
      rw [terms]
      exact has_expr hread htells hsuit.1 mem_cons_self

private theorem shows_lowerEvent {kind : EventKind} {param : Expr} {span : Span} {endLine : Nat}
    (hsuit : c.SuitedStmt (.event kind name (some param) body span endLine))
    (hkind : kind ≠ .custom) (hhat : c.catalog.hat? name = some s) :
    Shows scripts c.catalog (c.lowerEvent kind name (some param) body span)
      (c.argumentTerms (s.params.take 1) [param]) := by
  rw [SuitedStmt] at hsuit
  have hparam := hsuit.1 param rfl
  have hsuits := (hsuit.2.1 hkind s hhat).2
  have hs := Catalog.mem_signatures_of_hat? hhat
  have hassemble : c.lowerEvent kind name (some param) body span =
      assemble s.opcode (s.fieldSteps ++ c.placeAll ("@" ++ name) (s.params.take 1) [param] ++
        [c.bodyStep body]) := by
    cases kind with
    | custom => exact absurd rfl hkind
    | builtin => simp only [lowerEvent, hhat, Option.toList]
    | startup => simp only [lowerEvent, hhat, Option.toList]
  have hfields : (fieldNames (c.placeAll ("@" ++ name) (s.params.take 1) [param] ++
      [c.bodyStep body])).Sublist s.slotFields := by
    rw [fieldNames, filterMap_append, filterMap_cons_none rfl, filterMap_nil, append_nil]
    exact (fieldNames_placeAll _ _ _).trans ((take_sublist 1 s.params).filterMap _)
  intro _
  refine ⟨_, _, hassemble, (signatureSteps_apart hread.apart hs _ (take_sublist 1 s.params)
    [param]).nodup_bodyStep c body, fun n read htells => ?_⟩
  rw [append_assoc] at htells
  refine has_arguments hread htells (s.nodup_fieldNames hfields (hread.legible.fields s hs))
    (fun step hstep => mem_append_right _ (mem_append_left _ hstep))
    (forall_mem_singleton.mpr hparam) hsuits

end Blocks

end LowerContext

namespace Graph

variable {c : LowerContext} {program : Program}

private theorem StandsAt.has {scripts : List Block} (hlink : ∀ b ∈ scripts, b.Linked) {a : Assembly}
    {b : Block} {terms : List (Slot × Option Term)}
    (hshows : LowerContext.Shows scripts c.catalog a terms) (hb : a = ⟨some b, none⟩)
    (h : StandsAt (placedFrom 0 scripts) b id)
    (hnode : (ofScripts scripts).nodes[id]? = some node) :
    node.Has ((ofScripts scripts).read c.catalog) terms := by
  obtain ⟨opcode, steps, hassemble, hsteps, hhas⟩ := hshows (congrArg Assembly.fault hb)
  exact hhas node _ (h.tells hlink hsteps (hassemble.symm.trans hb) hnode (by omega))

private theorem BodyAt.suited (hsuit : ∀ item ∈ program.statements, c.SuitedStmt item)
    (h : BodyAt g c program c' body start) : c'.SuitedBody body := by
  have hitem {item : Stmt} {top : Nat} (hscript : (item, top) ∈ program.scripts.zip g.tops) :
      c.SuitedStmt item :=
    hsuit item (mem_of_mem_filter (of_mem_zip hscript).1)
  have hinner {c' : LowerContext} {body : List Stmt} {stmt : Stmt} {id : Nat} {ids : List Nat}
      (hbody : c'.SuitedBody body) (hstmt : (stmt, id) ∈ (c'.emitted body).zip ids) :
      c'.SuitedStmt stmt :=
    hbody.of_mem stmt (LowerContext.mem_of_mem_emitted (of_mem_zip hstmt).1)
  induction h with
  | event hscript hnode =>
    have hsuit := hitem hscript
    rw [LowerContext.SuitedStmt] at hsuit
    exact hsuit.2.2
  | function hscript hf hnode =>
    have hsuit := hitem hscript
    rw [LowerContext.SuitedStmt] at hsuit
    exact hsuit _ hf
  | thenBody hbody hchain hstmt hnode ih =>
    have hsuit := hinner ih hstmt
    rw [LowerContext.SuitedStmt] at hsuit
    exact hsuit.2.1
  | elseBody hbody hchain hstmt hnode ih =>
    have hsuit := hinner ih hstmt
    rw [LowerContext.SuitedStmt] at hsuit
    exact hsuit.2.2
  | @loop c' body start ids kind inner span id node hbody hchain hstmt hnode ih =>
    have hsuit := hinner ih hstmt
    cases kind with
    | forever =>
      rw [LowerContext.SuitedStmt] at hsuit
      exact hsuit
    | times count | «until» condition =>
      rw [LowerContext.SuitedStmt] at hsuit
      exact hsuit.2

private theorem BodyAt.catalog_eq (h : BodyAt g c program c' body start) :
    c'.catalog = c.catalog := by
  induction h with
  | event | function => rfl
  | thenBody _ _ _ _ ih | elseBody _ _ _ _ ih | loop _ _ _ _ ih => exact ih

/-- The first block of a script has the parameter of its handler. -/
theorem has_headTerms (hlow : c.Succeeds program) (hlegible : c.catalog.Legible)
    (hsuit : ∀ item ∈ program.statements, c.SuitedStmt item) {item : Stmt} {top : Nat}
    (hscript : (item, top) ∈ program.scripts.zip (ofScripts (program.blocks c)).tops)
    (hnode : (ofScripts (program.blocks c)).nodes[top]? = some node) :
    node.Has ((ofScripts (program.blocks c)).read c.catalog) (c.headTerms item) := by
  have hread : c.Readable (program.blocks c) := ⟨hlow.linked, hlegible, hlow.apart⟩
  have hitem := hsuit item (mem_of_mem_filter (of_mem_zip hscript).1)
  obtain ⟨b, hb, hplaced⟩ := forall₂_zip (forall₂_scripts_tops hlow) hscript
  unfold LowerContext.headTerms
  split
  · rename_i kind name param body span endLine
    split
    · exact fun p hp => by cases hp
    · rename_i hkind
      split
      · exact fun p hp => by cases hp
      · rename_i s hhat
        exact StandsAt.has hread.linked (LowerContext.shows_lowerEvent hread hitem hkind hhat) hb
          ⟨_, hplaced, rfl, .inl rfl⟩ hnode
  · exact fun p hp => by cases hp

/-- The block of a statement in a body that is lowered has the terms of the statement. -/
theorem BodyAt.has_terms (hlow : c.Succeeds program) (hlegible : c.catalog.Legible)
    (hcomp : c.catalog.Complete) (hsuit : ∀ item ∈ program.statements, c.SuitedStmt item)
    (h : BodyAt (ofScripts (program.blocks c)) c program c' body start) {ids : List Nat}
    (hchain : (ofScripts (program.blocks c)).IsChain start ids)
    (hstmt : (stmt, id) ∈ (c'.emitted body).zip ids)
    (hnode : (ofScripts (program.blocks c)).nodes[id]? = some node) :
    node.Has ((ofScripts (program.blocks c)).read c.catalog) (c'.terms stmt) := by
  have hbeg := h.beginsAt hlow
  have hcat := h.catalog_eq
  obtain ⟨b, hb, hstands⟩ := hbeg.exists_stands hlow.linked hchain hstmt
  have hemitted := (of_mem_zip hstmt).1
  have hstmt' := (h.suited hsuit).of_mem stmt (LowerContext.mem_of_mem_emitted hemitted)
  rw [← hcat] at hlegible hcomp ⊢
  have hread : c'.Readable (program.blocks c) := ⟨hlow.linked, hlegible, hbeg.apart⟩
  exact hstands.has hread.linked (LowerContext.shows_lowerStmt hread hcomp hstmt'
    (LowerContext.isDeclaration_of_mem_emitted hemitted)) hb hnode

end Graph

end BlockScript
