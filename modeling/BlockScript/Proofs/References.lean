import BlockScript.Compilation.Json
import BlockScript.Proofs.Emitted
import BlockScript.Proofs.Faithful
import BlockScript.Proofs.Hoisting

/-!
# References

A graph refers to the definitions of its program: fields name variables, lists and events by their
identities, a call names its function by the text and the parameters of the prototype, and a
reporter in the script of a function names one of the parameters. In a program that compiles, all
that is referred to exists, and it is referred to without ambiguity. The target has every entity
once.
-/

namespace BlockScript

open List

variable {name : String} {f : Function} {field : Field} {entity : EntityId} {id : Nat} {node : Node}
  {assigns : List Stmt} {item : Stmt}

/-- Whether definitions have the entity that a field with an identity names. -/
def Definitions.Names (d : Definitions) (field value : String) (id : EntityId) : Prop :=
  (field = "VARIABLE" ∧ ∃ v, d.scalars.get? value = some v ∧ v.name = value ∧ v.id = id) ∨
    (field = "LIST" ∧ ∃ l, d.lists.get? value = some l ∧ l.name = value ∧ l.id = id) ∨
    (field = "BROADCAST_OPTION" ∧ ∃ e, d.events.get? value = some e ∧ e.name = value ∧ e.id = id)

/-- Whether the block with a number is a prototype with the text and the parameters of a
procedure. -/
def Graph.IsPrototype (g : Graph) (m : Mutation) (id : Nat) : Prop :=
  ∃ node, g.nodes[id]? = some node ∧ node.face.opcode = "procedures_prototype" ∧
    ∃ m', node.face.mutation = some m' ∧ m'.procedure = m.procedure ∧ m'.argumentIds = m.argumentIds

/-- Whether the references of a graph are those to definitions. -/
structure Graph.Refers (g : Graph) (catalog : Catalog) (d : Definitions) : Prop where
  /-- Every field with an identity names an entity that has it. -/
  entities : ∀ (id : Nat) (node : Node), g.nodes[id]? = some node → ∀ name field,
    (name, field) ∈ node.face.fields.entries → ∀ entity, field.entity = some entity →
      d.Names name field.value entity
  /-- Every call of a function has one prototype, and its inputs are parameters of that
  prototype. -/
  calls : ∀ (id : Nat) (node : Node), g.nodes[id]? = some node →
    node.face.opcode = "procedures_call" →
    ∃ m, node.face.mutation = some m ∧ (∃! prototype, g.IsPrototype m prototype) ∧
      ∀ name ∈ node.inputs.keys, name ∈ m.argumentIds.map EntityId.text
  /-- Every reporter of a parameter stands in the script of a function that has the parameter. -/
  parameters :
    ∀ (id : Nat) (node : Node), g.nodes[id]? = some node → node.face.opcode ∈ argumentOpcodes →
    ∃ name top f param, g.Begins catalog d (.function name) top ∧ g.Leads id top ∧
      d.functions.get? name = some f ∧ param ∈ f.params ∧
      node.face.opcode = param.type.reporterOpcode ∧
      node.face.fields.get? "VALUE" = some { value := param.name }

/-- Whether a target has every variable, list and event of definitions once, under its identity. -/
structure Target.Lists (t : Target) (d : Definitions) : Prop where
  scalars : t.scalars.entries = d.scalars.values.map fun v => (v.id.text, v.name, v.first)
  lists : t.lists.entries = d.lists.values.map fun l => (l.id.text, l.name, l.values)
  broadcasts : t.broadcasts.entries = d.events.values.map fun e => (e.id.text, e.name)
  apart : (t.scalars.keys ++ t.lists.keys ++ t.broadcasts.keys).Nodup

namespace Definitions

variable {d : Definitions}

private theorem WellFormed.lists_target (h : d.WellFormed) {result : Compilation}
    (hd : result.defs = d) : result.target.Lists d := by
  subst hd
  have htexts := h.nodup_texts
  rw [identities, map_append, map_append, map_append] at htexts
  have hall := (nodup_append.mp htexts).1
  have hpair := (nodup_append.mp hall).1
  have hscalars : result.target.scalars.entries =
      result.defs.scalars.values.map fun v => (v.id.text, v.name, v.first) :=
    Table.entries_ofList (by simpa [Function.comp_def] using (nodup_append.mp hpair).1)
  have hlists : result.target.lists.entries =
      result.defs.lists.values.map fun l => (l.id.text, l.name, l.values) :=
    Table.entries_ofList (by simpa [Function.comp_def] using (nodup_append.mp hpair).2.1)
  have hevents : result.target.broadcasts.entries =
      result.defs.events.values.map fun e => (e.id.text, e.name) :=
    Table.entries_ofList (by simpa [Function.comp_def] using (nodup_append.mp hall).2.1)
  refine ⟨hscalars, hlists, hevents, ?_⟩
  simpa [Table.keys, hscalars, hlists, hevents, Function.comp_def] using hall

private theorem WellFormed.names_variable (h : d.WellFormed) {v : Variable}
    (hget : d.scalars.get? name = some v) : d.Names "VARIABLE" v.name v.id := by
  have hname : v.name = name := h.named (name, v.name) (by
    simp only [keyed, mem_append, mem_map]
    exact .inl (.inl (.inl (.inl ⟨_, Table.mem_entries_of_get? hget, rfl⟩))))
  exact .inl ⟨rfl, v, hname ▸ hget, rfl, rfl⟩

private theorem WellFormed.names_list (h : d.WellFormed) {l : ListVariable}
    (hget : d.lists.get? name = some l) : d.Names "LIST" l.name l.id := by
  have hname : l.name = name := h.named (name, l.name) (by
    simp only [keyed, mem_append, mem_map]
    exact .inl (.inl (.inl (.inr ⟨_, Table.mem_entries_of_get? hget, rfl⟩))))
  exact .inr (.inl ⟨rfl, l, hname ▸ hget, rfl, rfl⟩)

private theorem WellFormed.names_event (h : d.WellFormed) {e : CustomEvent}
    (hget : d.events.get? name = some e) : d.Names "BROADCAST_OPTION" name e.id := by
  have hname : e.name = name := h.named (name, e.name) (by
    simp only [keyed, mem_append, mem_map]
    exact .inr ⟨_, Table.mem_entries_of_get? hget, rfl⟩)
  exact .inr (.inr ⟨rfl, e, hget, hname, rfl⟩)

private theorem WellFormed.function_name (h : d.WellFormed)
    (hget : d.functions.get? name = some f) : f.name = name :=
  h.named (name, f.name) (by
    simp only [keyed, mem_append, mem_map]
    exact .inl (.inr ⟨_, Table.mem_entries_of_get? hget, rfl⟩))

private theorem WellFormed.function_unique (h : d.WellFormed) {name' : String} {f' : Function}
    (hf : d.functions.get? name = some f) (hf' : d.functions.get? name' = some f')
    (hprocedure : f'.procedure = f.procedure)
    (hparams : f'.params.map (·.id) = f.params.map (·.id)) : name' = name := by
  have hmem := Table.mem_values_of_get? hf
  have hmem' := Table.mem_values_of_get? hf'
  rw [← h.function_name hf, ← h.function_name hf']
  cases hempty : f.params with
  | nil =>
    have hempty' : f'.params = [] := map_eq_nil_iff.mp (by rw [hparams, hempty, map_nil])
    rw [h.procedures f hmem, h.procedures f' hmem', hempty, hempty'] at hprocedure
    simpa using hprocedure
  | cons param rest =>
    have hnodup : (d.functions.values.flatMap fun f => f.params.map (·.id)).Nodup :=
      (nodup_append.mp (List.Nodup.of_map _ h.numbers)).2.1
    by_contra hne
    have hpairwise := (nodup_flatMap.mp hnodup).2
    have hsymm : Std.Symm (Function.onFun List.Disjoint fun f : Function => f.params.map (·.id)) :=
      ⟨fun _ _ h _ hfirst hsnd => h hsnd hfirst⟩
    have hdisj : List.Disjoint (f'.params.map (·.id)) (f.params.map (·.id)) :=
      hpairwise.forall hmem' hmem fun heq => hne (congrArg Function.name heq)
    have hid : param.id ∈ f.params.map (·.id) := by simp [hempty]
    exact hdisj (hparams ▸ hid) hid

end Definitions

/-- The field of a slot that takes a list. -/
def Slot.list? : Slot → Option String
  | .list name => some name
  | _ => none

private theorem Robot.list_fields :
    ∀ s ∈ Robot.catalog.signatures, ∀ spec ∈ s.params, ∀ field ∈ spec.slot.list?,
      field = "LIST" := by decide

/-- The kinds of blocks that belong to functions of the program, but for their definitions. -/
def procedureOpcodes : List String := ["procedures_call", "procedures_prototype"] ++ argumentOpcodes

private theorem procedureOpcodes_subset : procedureOpcodes ⊆ ownOpcodes := by decide

namespace LowerContext

variable {c : LowerContext} {calls : List (String × List Expr)} {offset : Nat} {opcode : String}
  {shadow : Bool} {steps : List Step}

private theorem entity_of_mem_fieldSteps {s : Signature} (h : .field name field ∈ s.fieldSteps) :
    field.entity = none := by
  obtain ⟨⟨_, _⟩, _, heq⟩ := mem_map.mp h
  cases heq
  rfl

private theorem names_of_mem_placeAll (hwell : c.defs.WellFormed) {callee : String}
    {specs : List ParamSpec} (hspecs : ∀ spec ∈ specs, ∀ field ∈ spec.slot.list?, field = "LIST")
    {args : List Expr} (h : .field name field ∈ c.placeAll callee specs args)
    (hent : field.entity = some entity) : c.defs.Names name field.value entity := by
  induction specs generalizing args with
  | nil => simp [placeAll] at h
  | cons spec specs ih =>
    cases args with
    | nil => simp [placeAll] at h
    | cons arg args =>
      obtain ⟨hspec, hspecs⟩ := forall_mem_cons.mp hspecs
      rw [placeAll] at h
      rcases mem_cons.mp h with h | h
      · unfold place at h
        split at h
        · cases h
        · split at h <;> cases h
          cases hent
        · split at h <;> cases h
        · rename_i list hslot
          split at h <;> cases h
          rename_i l hl
          cases hent
          obtain rfl : name = "LIST" := hspec name (by rw [hslot]; exact rfl)
          obtain ⟨_, _, hget⟩ := Option.bind_eq_some_iff.mp hl
          exact hwell.names_list hget
      · exact ih hspecs h

private theorem field_not_mem (hsteps : ∀ step ∈ steps, step.link? ≠ none) :
    .field name field ∉ steps :=
  fun h => hsteps _ h rfl

private theorem EmitsAt.names (hcat : c.catalog = Robot.catalog) (hwell : c.defs.WellFormed)
    (h : c.EmitsAt calls offset opcode shadow steps) (hfield : .field name field ∈ steps)
    (hent : field.entity = some entity) : c.defs.Names name field.value entity := by
  have hfixed {s : Signature} : .field name field ∉ s.fieldSteps := by
    intro hmem
    rw [entity_of_mem_fieldSteps hmem] at hent
    cases hent
  have hplaced {s : Signature} (hs : s ∈ c.catalog.signatures) {specs : List ParamSpec}
      (hspecs : specs ⊆ s.params) {callee : String} {args : List Expr}
      (hmem : .field name field ∈ c.placeAll callee specs args) :
      c.defs.Names name field.value entity := by
    rw [hcat] at hs
    exact names_of_mem_placeAll hwell (fun spec hspec => Robot.list_fields s hs spec (hspecs hspec))
      hmem hent
  cases h with
  | hat hs =>
    simp only [mem_append, mem_singleton, hfixed, false_or] at hfield
    refine hplaced (Catalog.mem_signatures_of_hat? hs) (take_subset 1 _)
      (hfield.resolve_right fun heq => by cases heq)
  | receiver he =>
    rw [mem_pair] at hfield
    cases hfield.resolve_right fun heq => by cases heq
    cases hent
    exact hwell.names_event he
  | definition hsteps => exact absurd hfield (field_not_mem hsteps)
  | prototype hf hsteps =>
    rcases mem_append.mp hfield with hfield | hfield
    · exact absurd hfield (field_not_mem hsteps)
    · cases mem_singleton.mp hfield
  | inner h =>
    cases h with
    | operation =>
      rw [mem_pair] at hfield
      cases hfield.resolve_left (fun heq => by cases heq)
    | control _ hsteps => exact absurd hfield (field_not_mem hsteps)
    | param | menu =>
      cases mem_singleton.mp hfield
      cases hent
    | scalar hv _ hsteps =>
      rcases mem_cons.mp hfield with hfield | hfield
      · cases hfield
        cases hent
        exact hwell.names_variable hv
      · exact absurd hfield (field_not_mem hsteps)
    | list hl =>
      cases mem_singleton.mp hfield
      cases hent
      exact hwell.names_list hl
    | accessor _ hsteps =>
      rcases mem_append.mp hfield with hfield | hfield
      · exact absurd hfield hfixed
      · rcases hsteps _ hfield with hlink | hfault
        · exact absurd rfl hlink
        · exact absurd rfl hfault
    | setter hp =>
      rcases mem_append.mp hfield with hfield | hfield
      · exact absurd hfield hfixed
      · exact hplaced (Catalog.mem_signatures_of_set hp) (List.Subset.refl _) hfield
    | builtin hs =>
      rcases mem_append.mp hfield with hfield | hfield
      · exact absurd hfield hfixed
      · exact hplaced hs.mem_signatures (List.Subset.refl _) hfield
    | functionCall =>
      rcases mem_append.mp hfield with hfield | hfield
      · obtain ⟨_, _, heq⟩ := mem_map.mp hfield
        cases heq
      · cases mem_singleton.mp hfield
    | eventMenu he =>
      cases mem_singleton.mp hfield
      cases hent
      exact hwell.names_event he

private theorem EmitsAt.cases_of_procedure (hcat : c.catalog = Robot.catalog)
    (h : c.EmitsAt calls offset opcode shadow steps) (hcode : opcode ∈ procedureOpcodes) :
    (opcode = "procedures_call" ∧ ∃ name f args, c.defs.functions.get? name = some f ∧
        steps = (f.params.zip args).map
        (fun (param, arg) => Step.input param.id.text (c.lowerExpr arg)) ++
          [.mutation { procedure := f.procedure, argumentIds := f.params.map (·.id) }]) ∨
      (opcode = "procedures_prototype" ∧ offset = 1 ∧
        ∃ f before, c.function = some f ∧
        steps = before ++ [.mutation (LowerContext.prototype f)]) ∨
      (opcode ∈ argumentOpcodes ∧ ∃ f, c.function = some f ∧ ∃ p ∈ f.params,
        opcode = p.type.reporterOpcode ∧ steps = [.text "VALUE" p.name]) := by
  have hown : opcode ∈ ownOpcodes := procedureOpcodes_subset hcode
  have hplain : ∀ opcode ∈ plainOpcodes, opcode ∉ procedureOpcodes := by decide
  cases h with
  | hat hs =>
    rw [hcat] at hs
    exact absurd hown (Robot.tellsApart.signatures _ (Catalog.mem_signatures_of_hat? hs))
  | receiver => exact absurd hcode (by decide)
  | definition => exact absurd hcode (by decide)
  | prototype hf => exact .inr (.inl ⟨rfl, rfl, _, _, hf, rfl⟩)
  | inner h =>
    cases h with
    | @operation op type =>
      exact absurd hcode (hplain _ (op.layout_mem_plainOpcodes type))
    | control hcontrol => exact absurd hcode (hplain _ (mem_append_left _ hcontrol))
    | param hf hp => exact .inr (.inr ⟨DataType.reporterOpcode_mem _, _, hf, _, hp, rfl, rfl⟩)
    | scalar _ hvar =>
      have hapart : ∀ opcode ∈ variableOpcodes, opcode ∉ procedureOpcodes := by decide
      exact absurd hcode (hapart opcode hvar)
    | list => exact absurd hcode (by decide)
    | accessor hs =>
      rw [hcat] at hs
      exact absurd hown (Robot.tellsApart.signatures _ (Catalog.accessors_subset _ hs))
    | setter hp =>
      rw [hcat] at hp
      exact absurd hown (Robot.tellsApart.signatures _ (Catalog.mem_signatures_of_set hp))
    | builtin hs =>
      rw [hcat] at hs
      exact absurd hown (Robot.tellsApart.signatures _ hs.mem_signatures)
    | @menu s spec name _ field text hs hspec hslot =>
      rw [hcat] at hs
      refine absurd hown (Robot.tellsApart.menus s hs spec hspec opcode ?_).1
      rw [hslot]
      rfl
    | functionCall hf => exact .inl ⟨rfl, _, _, _, hf, rfl⟩
    | eventMenu => exact absurd hcode (by decide)

private theorem exists_of_function_inside (hnone : c.function = none)
    (h : (c.inside item).function = some f) :
    ∃ name, item.scriptHead? = some (.function name) ∧ c.defs.functions.get? name = some f := by
  cases item with
  | funcDecl name => exact ⟨name, rfl, h⟩
  | _ =>
    change c.function = some f at h
    rw [hnone] at h
    cases h

end LowerContext

/-- The function that begins a script. -/
def ScriptHead.function? : ScriptHead → Option String
  | .function name => some name
  | .event .. => none

/-- The functions that a program declares, in order. -/
def Program.functionNames (program : Program) : List String :=
  program.scriptHeads.filterMap ScriptHead.function?

private theorem Program.functionNames_eq (program : Program) : program.functionNames =
    program.scripts.filterMap fun item => item.scriptHead?.bind ScriptHead.function? := by
  unfold functionNames scriptHeads scripts
  rw [filterMap_filterMap, filterMap_filter]
  congr 1
  funext item
  cases item.scriptHead? <;> rfl

private theorem Program.functionNames_fold (catalog : Catalog) (types : TypeTable)
    (pictures : Pictures) (defs : Definitions) (program : Program) :
    (program.fold catalog types pictures defs).program.functionNames = program.functionNames :=
  congrArg (List.filterMap ScriptHead.function?) Program.scriptHeads_fold

namespace Stmt

variable {types : TypeTable} {first : Nat}

private theorem HoistsItem.scriptHead? {out : Stmt}
    (h : item.HoistsItem types first out assigns) : out.scriptHead? = item.scriptHead? := by
  cases item with
  | varDecl name type value hoisted span =>
    rw [HoistsItem] at h
    split at h
    · rw [h.1]
    · obtain ⟨_, _, _, rfl, _⟩ := h
      rfl
  | funcDecl name params body span endLine =>
    obtain ⟨_, _, rfl, _⟩ := h
    rfl
  | event kind name param body span endLine =>
    obtain ⟨_, _, rfl, _⟩ := h
    rfl
  | _ =>
    obtain ⟨rfl, _⟩ := h
    rfl

private theorem HoistsItems.scriptHeads {items outs : List Stmt}
    (h : HoistsItems types first items outs assigns) :
    outs.filterMap Stmt.scriptHead? = items.filterMap Stmt.scriptHead? := by
  induction items generalizing outs assigns with
  | nil =>
    obtain ⟨rfl, _⟩ := h
    rfl
  | cons item rest ih =>
    obtain ⟨out, more, _, _, hitem, hrest, rfl, _⟩ := h
    rw [filterMap_cons, filterMap_cons, hitem.scriptHead?, ih hrest]

end Stmt

open Analyzer

section Functions

variable {catalog : Catalog} {options : AnalysisOptions} {tokens : List Token}

private theorem functionNames_analyze
    (h : (analyze catalog options (parse tokens).program).errors = []) :
    (analyze catalog options (parse tokens).program).program.functionNames =
      (parse tokens).program.functionNames := by
  have hparsed := parse_parsed tokens
  have hdist := (wellFormed_analyze catalog options (parse tokens).program).distinct
  obtain ⟨s, hrun, _, hdefs, _⟩ := clean_of_errors_analyze h
  rw [hdefs] at hdist
  obtain ⟨outs, assigns, hhoists, heq, _⟩ := hoists_program hparsed hrun hdist
  have hstartup :
      ((startupHandler assigns).filterMap Stmt.scriptHead?).filterMap ScriptHead.function? =
      [] := by
    unfold startupHandler
    split <;> rfl
  unfold Program.functionNames Program.scriptHeads
  rw [heq, filterMap_append, filterMap_append, hstartup, nil_append, hhoists.scriptHeads]

private theorem functionNames_sublist (items : List Stmt) :
    ((items.filterMap Stmt.scriptHead?).filterMap ScriptHead.function?).Sublist
      (items.filterMap Stmt.ownName?) := by
  induction items with
  | nil => exact .slnil
  | cons item rest ih =>
    cases item with
    | varDecl | constDecl => exact ih.cons _
    | funcDecl => exact ih.cons_cons _
    | event kind =>
      cases kind with
      | custom => exact ih.cons _
      | _ => exact ih
    | _ => exact ih

private theorem nodup_functionNames
    (h : (analyze catalog options (parse tokens).program).errors = []) :
    (parse tokens).program.functionNames.Nodup := by
  have hparsed := parse_parsed tokens
  obtain ⟨s, hrun, _⟩ := clean_of_errors_analyze h
  have hperm := Stmt.declaredAll_perm fun item hitem => (hparsed.items item hitem).1
  have hnodup := hperm.nodup_iff.mp (takes_program hparsed.items hrun).1
  exact (nodup_append.mp hnodup).1.sublist (functionNames_sublist _)

private theorem mem_functionNames
    (h : (analyze catalog options (parse tokens).program).defs.lookup .function name ≠ none) :
    name ∈ (parse tokens).program.functionNames := by
  rcases (grows_analyze catalog options (parse tokens).program).1.added .function name rfl h with
    hvalue | ⟨item, hitem, hintro⟩
  · cases hvalue
  · have hhead : item.scriptHead? = some (.function name) := by
      unfold Stmt.introduced? at hintro
      split at hintro <;> cases hintro
      rfl
    exact mem_filterMap.mpr ⟨_, mem_filterMap.mpr ⟨item, hitem, hhead⟩, rfl⟩

end Functions

private theorem eq_of_mem_zip {α β γ : Type} {f : α → Option γ} {l : List α} {m : List β}
    (hnodup : (l.filterMap f).Nodup) {a a' : α} {b b' : β} {key : γ} (h : (a, b) ∈ l.zip m)
    (h' : (a', b') ∈ l.zip m) (ha : f a = some key) (ha' : f a' = some key) : b = b' := by
  induction l generalizing m with
  | nil => cases h
  | cons first rest ih =>
    cases m with
    | nil => cases h
    | cons second more =>
      have hfresh (hfirst : f first = some key) {x : α} {y : β} (hmem : (x, y) ∈ rest.zip more)
          (hx : f x = some key) : False := by
        rw [filterMap_cons, hfirst] at hnodup
        exact (nodup_cons.mp hnodup).1 (mem_filterMap.mpr ⟨x, (of_mem_zip hmem).1, hx⟩)
      rcases mem_cons.mp h with heq | hmem <;> rcases mem_cons.mp h' with heq' | hmem'
      · cases heq
        cases heq'
        rfl
      · cases heq
        exact (hfresh ha hmem' ha').elim
      · cases heq'
        exact (hfresh ha' hmem ha).elim
      · exact ih (hnodup.sublist ((sublist_cons_self first rest).filterMap f)) hmem hmem'

private theorem LowerContext.defs_inside (c : LowerContext) (item : Stmt) :
    (c.inside item).defs = c.defs := by
  cases item <;> rfl

namespace Graph

section Program

variable {c : LowerContext} {program : Program} (hlow : c.Succeeds program)
  (hcat : c.catalog = Robot.catalog) (hnone : c.function = none) (hwell : c.defs.WellFormed)
  (hsuit : ∀ item ∈ program.statements, c.SuitedStmt item)

include hlow hcat hsuit

include hwell in
private theorem names_of_mem_fields (hnode : (ofScripts (program.blocks c)).nodes[id]? = some node)
    (hfield : (name, field) ∈ node.face.fields.entries) (hent : field.entity = some entity) :
    c.defs.Names name field.value entity := by
  obtain ⟨item, _, _, _, _, shadow, steps, _, hemits, hface, _⟩ :=
    exists_emitsAt hlow hnode hsuit
  rw [hface] at hfield
  have hmem := (mem_of_mem_foldl_onFace hfield).resolve_right nofun
  have hdefs := c.defs_inside item
  exact hdefs ▸ hemits.names ((c.catalog_inside item).trans hcat) (hdefs ▸ hwell) hmem hent

include hwell hnone in
private theorem exists_of_isPrototype {m : Mutation} (hf : c.defs.functions.get? name = some f)
    (hprocedure : m.procedure = f.procedure) (hids : m.argumentIds = f.params.map (·.id))
    (h : (ofScripts (program.blocks c)).IsPrototype m id) :
    ∃ item top, (item, top) ∈ program.scripts.zip (ofScripts (program.blocks c)).tops ∧
      item.scriptHead? = some (.function name) ∧ id = top + 1 := by
  obtain ⟨node, hnode, hcode, m', hmut, hprocedure', hids'⟩ := h
  obtain ⟨item, top, hzip, _, hle, shadow, steps, _, hemits, hface, _⟩ :=
    exists_emitsAt hlow hnode hsuit
  have hown : node.face.opcode ∈ procedureOpcodes := by
    rw [hcode]
    decide
  rcases hemits.cases_of_procedure ((c.catalog_inside item).trans hcat) hown with
    ⟨hcall, _⟩ | ⟨_, hoffset, f', before, hf', rfl⟩ | ⟨hreports, _⟩
  · exact absurd (hcall.symm.trans hcode) (by decide)
  · rw [hface, foldl_append] at hmut
    cases hmut
    obtain ⟨name', hhead, hget⟩ := LowerContext.exists_of_function_inside hnone hf'
    obtain rfl := hwell.function_unique hf hget (hprocedure'.trans hprocedure) (hids'.trans hids)
    exact ⟨item, top, hzip, hhead, by omega⟩
  · rw [hcode] at hreports
    exact absurd hreports (by decide)

include hwell hnone in
/-- Every function has one prototype, if the program declares each function of the definitions
once. -/
theorem existsUnique_isPrototype (hnodup : program.functionNames.Nodup)
    (hdecl : ∀ name, c.defs.functions.get? name ≠ none → name ∈ program.functionNames)
    (hf : c.defs.functions.get? name = some f) : ∃! id, (ofScripts (program.blocks c)).IsPrototype
      { procedure := f.procedure, argumentIds := f.params.map (·.id) } id := by
  rw [Program.functionNames_eq] at hnodup hdecl
  obtain ⟨item, hitem, hname⟩ := mem_filterMap.mp (hdecl name (by rw [hf]; nofun))
  have hhead : item.scriptHead? = some (.function name) := by
    obtain ⟨head, hhead, hfun⟩ := Option.bind_eq_some_iff.mp hname
    cases head <;> cases hfun
    exact hhead
  obtain ⟨top, _, head, hhead', hbeg⟩ := exists_zip_of_forall₂ (forall₂_heads_tops hlow).flip hitem
  cases hhead.symm.trans hhead'
  obtain ⟨_, _, _, g, hg, _, id, prototype, _, hnode, hcode, hmut⟩ := hbeg
  cases hf.symm.trans hg
  have hexists : (ofScripts (program.blocks c)).IsPrototype
      { procedure := f.procedure, argumentIds := f.params.map (·.id) } id :=
    ⟨prototype, hnode, hcode, _, hmut, rfl, rfl⟩
  refine ⟨id, hexists, fun other hother => ?_⟩
  -- The script of the function is the only one with such a head, and the prototype has its place in
  -- it.
  obtain ⟨item₁, top₁, hzip₁, hhead₁, rfl⟩ :=
    exists_of_isPrototype hlow hcat hnone hwell hsuit hf rfl rfl hexists
  obtain ⟨item₂, top₂, hzip₂, hhead₂, rfl⟩ :=
    exists_of_isPrototype hlow hcat hnone hwell hsuit hf rfl rfl hother
  have htop : top₂ = top₁ :=
    eq_of_mem_zip hnodup hzip₂ hzip₁ (by rw [hhead₂]; rfl) (by rw [hhead₁]; rfl)
  rw [htop]

private theorem exists_of_call (hnode : (ofScripts (program.blocks c)).nodes[id]? = some node)
    (hcode : node.face.opcode = "procedures_call") : ∃ name f, c.defs.functions.get? name = some f ∧
      node.face.mutation = some { procedure := f.procedure, argumentIds := f.params.map (·.id) } ∧
      ∀ name ∈ node.inputs.keys, name ∈ (f.params.map (·.id)).map EntityId.text := by
  obtain ⟨item, top, _, _, _, shadow, steps, core, hemits, hface, hfrom, hstands⟩ :=
    exists_emitsAt hlow hnode hsuit
  have hown : node.face.opcode ∈ procedureOpcodes := by
    rw [hcode]
    decide
  rcases hemits.cases_of_procedure ((c.catalog_inside item).trans hcat) hown with
    ⟨_, name, f, args, hf, rfl⟩ | ⟨hprototype, _⟩ | ⟨hreports, _⟩
  · rw [c.defs_inside item] at hf
    refine ⟨name, f, hf, ?_, fun key hkey => ?_⟩
    · rw [hface, foldl_append]
      rfl
    · by_contra hother
      have hat := hstands.at_input hlow.linked hnode key
      rw [held?_assembleFrom_eq_none hfrom] at hat
      · exact Table.get?_eq_none_iff.mp hat hkey
      · intro hmem
        obtain ⟨step, hstep, hlink⟩ := mem_filterMap.mp hmem
        rcases mem_append.mp hstep with hstep | hstep
        · obtain ⟨⟨param, arg⟩, hzip, rfl⟩ := mem_map.mp hstep
          cases hlink
          exact hother (mem_map_of_mem (mem_map_of_mem (of_mem_zip hzip).1))
        · rw [mem_singleton.mp hstep] at hlink
          cases hlink
  · exact absurd (hcode.symm.trans hprototype) (by decide)
  · rw [hcode] at hreports
    exact absurd hreports (by decide)

include hnone in
private theorem exists_of_argument (hnode : (ofScripts (program.blocks c)).nodes[id]? = some node)
    (hcode : node.face.opcode ∈ argumentOpcodes) :
    ∃ name top f param, (ofScripts (program.blocks c)).Begins c.catalog c.defs
    (.function name) top ∧
      (ofScripts (program.blocks c)).Leads id top ∧ c.defs.functions.get? name = some f ∧
      param ∈ f.params ∧ node.face.opcode = param.type.reporterOpcode ∧
      node.face.fields.get? "VALUE" = some { value := param.name } := by
  obtain ⟨item, top, hzip, hleads, _, shadow, steps, _, hemits, hface, _⟩ :=
    exists_emitsAt hlow hnode hsuit
  have hown : node.face.opcode ∈ procedureOpcodes := mem_append_right _ hcode
  rcases hemits.cases_of_procedure ((c.catalog_inside item).trans hcat) hown with
    ⟨hcall, _⟩ | ⟨hprototype, _⟩ | ⟨_, f, hf, param, hparam, htype, rfl⟩
  · rw [hcall] at hcode
    exact absurd hcode (by decide)
  · rw [hprototype] at hcode
    exact absurd hcode (by decide)
  · obtain ⟨name, hhead, hget⟩ := LowerContext.exists_of_function_inside hnone hf
    obtain ⟨head, hhead', hbeg⟩ := (forall₂_iff_zip.mp (forall₂_heads_tops hlow)).2 hzip
    cases hhead.symm.trans hhead'
    refine ⟨name, top, f, param, hbeg, hleads, hget, hparam, htype, ?_⟩
    have hnodup : (fieldNames [.text "VALUE" param.name]).Nodup := nodup_singleton "VALUE"
    rw [hface]
    exact get?_foldl_onFace hnodup mem_cons_self _

include hwell hnone in
/-- The graph of a program refers to the definitions of the program. -/
theorem refers_ofScripts (hnodup : program.functionNames.Nodup)
    (hdecl : ∀ name, c.defs.functions.get? name ≠ none → name ∈ program.functionNames) :
    (ofScripts (program.blocks c)).Refers c.catalog c.defs where
  entities _ _ hnode _ _ hfield _ hent :=
    names_of_mem_fields hlow hcat hwell hsuit hnode hfield hent
  calls id node hnode hcode := by
    obtain ⟨name, f, hf, hmut, hinputs⟩ := exists_of_call hlow hcat hsuit hnode hcode
    exact ⟨_, hmut, existsUnique_isPrototype hlow hcat hnone hwell hsuit hnodup hdecl hf, hinputs⟩
  parameters _ _ hnode hcode := exists_of_argument hlow hcat hnone hsuit hnode hcode

end Program

end Graph

namespace Stages

variable {catalog : Catalog} {pictures : Pictures} {options : AnalysisOptions} {macros : Macros}
  {tokens : List Token}

private theorem bare_folding : (ofTokens catalog pictures options macros tokens).folding.defs.bare =
    (ofTokens catalog pictures options macros tokens).analysis.defs.bare :=
  Program.bare_fold ..

private theorem wellFormed_folding :
    (ofTokens catalog pictures options macros tokens).folding.defs.WellFormed :=
  (wellFormed_analyze ..).of_bare_eq bare_folding

private theorem Clean.functionNames (h : (ofTokens catalog pictures options macros tokens).Clean) :
    (ofTokens catalog pictures options macros tokens).folding.program.functionNames.Nodup ∧
      ∀ name, (ofTokens catalog pictures options macros tokens).folding.defs.functions.get? name ≠
      none →
        name ∈ (ofTokens catalog pictures options macros tokens).folding.program.functionNames := by
  have herrs := h.errors_eq_nil.1
  have hnames : (ofTokens catalog pictures options macros tokens).folding.program.functionNames =
      (parse (macros.expand tokens).tokens).program.functionNames :=
    (Program.functionNames_fold ..).trans (functionNames_analyze herrs)
  rw [hnames]
  refine ⟨nodup_functionNames herrs, fun name hname => ?_⟩
  obtain ⟨f, hf⟩ := Option.ne_none_iff_exists'.mp hname
  have hlook := Definitions.lookup_function hf
  rw [Definitions.lookup_eq_of_bare_eq bare_folding] at hlook
  exact mem_functionNames (ne_of_eq_of_ne hlook nofun)

end Stages

/-- The graph and the definitions of every program that is compiled for the robot refer to each
other. A field with an identity names the variable, list or event that has it. A call of a function
has the text and the parameters of one prototype, and its inputs are among those parameters. The
reporter of a parameter stands in the script of a function that has the parameter. The target has
every variable, list and event once, under its identity. -/
theorem compile_refers {path : String} {pictures : Pictures} {options : CompileOptions}
    {source : Source} {result : Compilation}
    (h : compile path Robot.catalog pictures options source = .ok result) :
    result.graph.Refers Robot.catalog result.defs ∧ result.target.Lists result.defs := by
  obtain ⟨st, hst, hclean, hlow, hblocks⟩ := blocks_of_compile h
  obtain ⟨st', hst', _, _, hdefs⟩ := stages_of_compile h
  cases hst.symm.trans hst'
  have hsuit := hclean.suited hst
  obtain ⟨macros, tokens, _, rfl⟩ := stagesOf_eq_ok_iff.mp hst
  obtain ⟨hnodup, hdecl⟩ := hclean.functionNames
  rw [hblocks, hdefs]
  exact ⟨Graph.refers_ofScripts hlow rfl rfl Stages.wellFormed_folding hsuit hnodup hdecl,
    Stages.wellFormed_folding.lists_target hdefs⟩

/-- Functions with and without parameters, called more than once, and a variable, a list and an
event. -/
def countedMarks : Source :=
  Source.ofText <| "var total = 0\nvar marks = [1, 2]\nfunc add(size: number, loud: boolean):\n" ++
    "  total += size\n  if loud:\n    done()\nfunc reset():\n  list.clear(marks)\nevent done:\n" ++
    "  reset()\n@start:\n  add(list.length(marks), total > 1)\n  add(2, false)\n"

/-- Three calls are sound. -/
theorem compile_refers_countedMarks : ∃ result,
    compile "main.bot" Robot.catalog noPictures {} countedMarks = .ok result ∧
      (result.graph.nodes.filter fun n => n.face.opcode = "procedures_call").length = 3 ∧
      (result.graph.nodes.filter fun n => n.face.opcode ∈ argumentOpcodes).length = 4 ∧
      (result.graph.nodes.flatMap fun n => n.face.fields.values.filterMap Field.entity).length = 7 ∧
      result.graph.Refers Robot.catalog result.defs ∧ result.target.Lists result.defs := by
  have hany : (compile "main.bot" Robot.catalog noPictures {} countedMarks).toOption.any
      (fun result =>
      decide ((result.graph.nodes.filter fun n => n.face.opcode = "procedures_call").length = 3 ∧
        (result.graph.nodes.filter fun n => n.face.opcode ∈ argumentOpcodes).length = 4 ∧
        (result.graph.nodes.flatMap fun n => n.face.fields.values.filterMap Field.entity).length =
        7)) =
      true := by decide +kernel
  obtain ⟨result, hres, hshown⟩ := exists_of_toOption_any hany
  obtain ⟨hcalls, hreporters, hentities⟩ := of_decide_eq_true hshown
  exact ⟨result, hres, hcalls, hreporters, hentities, compile_refers hres⟩

end BlockScript
