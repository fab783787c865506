import BlockScript.Proofs.FoldMeaning
import BlockScript.Proofs.Folded
import BlockScript.Proofs.Scripts

/-!
# Lowering without faults

Lowering has a fault for whatever it cannot make sense of: names without a meaning, arguments
without a type, fields without a value. In an accepted program in which folding finds no error, none
of this is left. The names were resolved and are still there, folding keeps the nodes by which types
are recorded, and what a field takes has become a literal.
-/

namespace BlockScript

open List Step

variable {steps : List Step} {name target opcode callee : String} {args : List Expr}
  {value e : Expr}
  {signature : Signature} {catalog : Catalog} {op : AssignOp} {body : List Stmt} {entity : Entity}
  {fits : Value → DataType → Prop} {inv : List String → Definitions → Prop} {kind : EventKind}
  {param : Option Expr} {params passed : List String}

private theorem assemble_fault {shadow : Bool} (h : ∀ step ∈ steps, step.fault? = none) :
    (assemble opcode steps shadow).fault = none :=
  (fault_assembleFrom _ steps).trans (findSome?_eq_none_iff.mpr h)

/-- Complete steps, complete content. -/
theorem Content.fault?_ofSteps (h : ∀ step ∈ steps, step.fault? = none) :
    (Content.ofSteps opcode steps).fault? = none :=
  assemble_fault h

private theorem Signature.fault?_fieldSteps (s : Signature) :
    ∀ step ∈ s.fieldSteps, step.fault? = none := by
  intro step hstep
  obtain ⟨field, _, rfl⟩ := mem_map.mp hstep
  rfl

/-- Whether definitions say what a finished analysis says, and all values are known. -/
structure Finished.Valued (w : Finished) (d : Definitions) : Prop where
  lookup : d.lookup = w.defs.lookup
  values : ∀ name, d.lookup .constant name ≠ none → d.value? name ≠ none

/-- What lowering looks up in a function, or outside of all functions, once definitions have
changed. -/
def Finished.lowering (w : Finished) (d : Definitions) (function : Option String) : LowerContext :=
  { w with defs := d }.context function

/-- Lowering has later definitions. -/
@[simp] theorem Finished.lowering_defs (w : Finished) (d : Definitions)
    (function : Option String) : (w.lowering d function).defs = d := rfl

@[simp] private theorem Finished.lowering_catalog (w : Finished) (d : Definitions)
    (function : Option String) : (w.lowering d function).catalog = w.catalog := rfl

/-- Whether folding reads what a finished analysis says. -/
structure FoldContext.Reads (c : FoldContext) (w : Finished) : Prop where
  catalog : c.catalog = w.catalog
  types : c.types = w.types
  lookup : c.defs.lookup = w.defs.lookup

variable {w : Finished} {d : Definitions} {function : Option String} {c : FoldContext}

/-- Parameters are found alike. -/
theorem Finished.Valued.param?_eq (h : w.Valued d) (name : String) :
    (w.lowering d function).param? name = (w.context function).param? name :=
  Definitions.param?_congr (fun _ _ => by rw [h.lookup]) name

/-- Names denote alike. -/
theorem Finished.Valued.entity?_eq (h : w.Valued d) :
    (w.lowering d function).entity? = (w.context function).entity? := by
  funext name
  unfold LowerContext.entity?
  rw [h.param?_eq name, show (w.lowering d function).defs.entity? = w.defs.entity? from
    Definitions.entity?_congr h.lookup]
  rfl

/-- The content that stands for an entity. -/
def Entity.Reports (d : Definitions) (name : String) : Entity → Content → Prop
  | .param p, content => content = .ofSteps p.type.reporterOpcode [.text "VALUE" name]
  | .scalar v, content => content = v.reporter
  | .list l, content => content = l.reporter
  | .constant _, content => ∃ value, d.value? name = some value ∧ content = .literal value
  | .reporter signature _, content => content = signature.reporter

private theorem Entity.Reports.fault? {content : Content} :
    ∀ {entity : Entity}, entity.Reports d name content → content.fault? = none
  | .param _, h => h ▸ Content.fault?_ofSteps (by simp [Step.text, Step.fault?])
  | .scalar _, h | .list _, h => h ▸ Content.fault?_ofSteps (by simp [Step.entity, Step.fault?])
  | .constant _, ⟨_, _, h⟩ => h ▸ rfl
  | .reporter signature _, h => h ▸ Content.fault?_ofSteps signature.fault?_fieldSteps

namespace LowerContext

variable {lc : LowerContext}

/-- What is denoted is reported. -/
theorem reports_lowerName (hvalues : ∀ name, lc.defs.lookup .constant name ≠ none →
      lc.defs.value? name ≠ none) (h : lc.entity? name = some entity) (span : Span) :
    entity.Reports lc.defs name (lc.lowerName name span) := by
  have hvalue := hvalues name
  unfold LowerContext.entity? at h
  rw [Definitions.entity?_eq] at h
  unfold LowerContext.lowerName
  cases hparam : lc.param? name with
  | some p =>
    rw [hparam] at h
    cases h
    rfl
  | none =>
    rw [hparam] at h
    cases hscalar : lc.defs.scalars.get? name with
    | some v =>
      rw [hscalar] at h
      cases h
      rfl
    | none =>
    rw [hscalar] at h
    cases hlist : lc.defs.lists.get? name with
    | some l =>
      rw [hlist] at h
      cases h
      rfl
    | none =>
    rw [hlist] at h
    cases hconst : lc.defs.constants.get? name with
    | some c =>
      rw [hconst] at h
      cases h
      have hsome : lc.defs.value? name ≠ none := hvalue (by simp [Definitions.lookup, hconst])
      have heq : lc.defs.value? name = c.value := by simp [Definitions.value?, hconst]
      cases hvalue? : c.value with
      | none => exact absurd (heq.trans hvalue?) hsome
      | some value => exact ⟨value, heq.trans hvalue?, by simp [hvalue?]⟩
    | none =>
      rw [hconst] at h
      obtain ⟨signature, hsig, hres⟩ := Option.bind_eq_some_iff.mp h
      obtain ⟨type, _, rfl⟩ := Option.map_eq_some_iff.mp hres
      simp only [hsig]
      rfl

private theorem Has.exists_entity? :
    ∀ {entity : Entity}, lc.Has name entity → ∃ found, lc.entity? name = some found
  | .param p, h => ⟨.param p, by rw [LowerContext.entity?, show lc.param? name = some p from h]⟩
  | .scalar _, ⟨hparam, h⟩ | .list _, ⟨hparam, h⟩ | .constant _, ⟨hparam, h⟩ => by
    rw [LowerContext.entity?, hparam, h]
    exact ⟨_, rfl⟩
  | .reporter .., ⟨hparam, h⟩ => by
    rw [LowerContext.entity?, hparam, h]
    cases lc.defs.entity? name with
    | none => exact ⟨_, rfl⟩
    | some found => exact ⟨found, rfl⟩

private theorem fault?_lowerName (h : w.Valued d) (hhas : (w.context function).Has name entity)
    (span : Span) : ((w.lowering d function).lowerName name span).fault? = none := by
  obtain ⟨found, hfound⟩ := hhas.exists_entity?
  rw [← h.entity?_eq] at hfound
  exact (reports_lowerName h.values hfound span).fault?

/-- Whether an argument can be placed: a field takes a literal, and a list is named. -/
structure Takes (lc : LowerContext) (spec : ParamSpec) (arg : Expr) : Prop where
  content : (lc.lowerExpr arg).fault? = none
  field : ∀ field, spec.slot = .field field → arg.value? ≠ none
  list : ∀ field, spec.slot = .list field → lc.list? arg ≠ none

private theorem Takes.fault? {spec : ParamSpec} {arg : Expr} (h : lc.Takes spec arg)
    (callee : String) : (lc.place callee spec arg (lc.lowerExpr arg)).fault? = none := by
  unfold place
  split
  · exact h.content
  · rename_i name hslot
    obtain ⟨value, hvalue⟩ := Option.ne_none_iff_exists'.mp (h.field name hslot)
    rw [hvalue]
    rfl
  · split
    · exact assemble_fault (by simp [Step.text, Step.fault?])
    · exact h.content
  · rename_i name hslot
    obtain ⟨list, hlist⟩ := Option.ne_none_iff_exists'.mp (h.list name hslot)
    rw [hlist]
    rfl

private theorem fault?_placeAll {specs : List ParamSpec}
    (h : ∀ p ∈ specs.zip args, lc.Takes p.1 p.2) (callee : String) :
    ∀ step ∈ lc.placeAll callee specs args, step.fault? = none := by
  induction specs generalizing args with
  | nil => simp [placeAll]
  | cons spec specs ih =>
    cases args with
    | nil => simp [placeAll]
    | cons arg args =>
      rw [placeAll, forall_mem_cons]
      rw [zip_cons_cons, forall_mem_cons] at h
      exact ⟨h.1.fault? callee, ih h.2⟩

/-- Literals have no fault. -/
theorem fault?_lowerExpr_literal (tag : Tag) (value : Value) :
    (lc.lowerExpr (.literal tag value)).fault? = none := by
  cases value with
  | number n =>
    rfl
  | string text =>
    rfl
  | boolean b =>
    cases b with
    | true =>
      exact Content.fault?_ofSteps (by simp)
    | false =>
      rfl

private theorem fault?_lowerExpr_literalOr {tag : Tag} {value : Option Value}
    (h : (lc.lowerExpr e).fault? = none) :
    (lc.lowerExpr (Expr.literalOr tag value e)).fault? = none := by
  cases value with
  | none => exact h
  | some value => exact fault?_lowerExpr_literal tag value

end LowerContext

namespace Expr

private theorem value?_eq_none_of_name? (h : e.name? = some name) : e.value? = none := by
  unfold Expr.name? at h
  unfold Expr.value?
  split at h
  · rename_i heq
    rw [heq]
  · cases h

/-- An unknown name stays. -/
theorem name?_fold (hknown : c.known? name = none) : ∀ {e : Expr},
    e.name? = some name → (e.fold c).name? = some name
  | .ident tag other, h => by
    cases h
    rw [fold, hknown]
    rfl
  | .group tag inner, h => by
    have hinner : (inner.fold c).name? = some name := name?_fold hknown (e := inner) h
    rw [fold, value?_eq_none_of_name? hinner]
    exact hinner
  | .literal .., h | .call .., h | .cast .., h | .list .., h | .not .., h
  | .binary .., h => by cases h

private theorem foldAll_eq_map (c : FoldContext) (es : List Expr) :
    foldAll c es = es.map (fold c) := by
  induction es with
  | nil => rfl
  | cons e rest ih => rw [foldAll, ih, map_cons]

/-- Folding keeps recorded types. -/
theorem mapM_recorded_foldAll {types : TypeTable} (c : FoldContext) (es : List Expr) :
    (foldAll c es).mapM (fun e => types.get? e.id) = es.mapM fun e => types.get? e.id :=
  (prunedAll_foldAll c es).mapM_recorded

end Expr

/-- Whether the result of an analysis can be lowered with some definitions. -/
structure Finished.Ready (w : Finished) (d : Definitions) : Prop where
  valued : w.Valued d
  distinct : w.defs.Distinct
  supports : ∀ use, w.resolved use → w.Supports use

variable {known : List String}

/-- Lists are not known. -/
theorem FoldContext.Reads.known?_eq_none (h : c.Reads w) (hdist : w.defs.Distinct)
    (hname : w.defs.lookup .list name ≠ none) : c.known? name = none := by
  obtain ⟨decl, hdecl⟩ := Option.ne_none_iff_exists'.mp hname
  have hconst := Definitions.lookup_eq_none_of_distinct hdist hdecl .constant nofun
  rw [← h.lookup] at hconst
  have hnone : c.defs.constants.get? name = none := Option.map_eq_none_iff.mp hconst
  simp [FoldContext.known?, hnone]

private theorem Finished.Ready.list?_fold (h : w.Ready d) (hreads : c.Reads w) {arg : Expr}
    (hname : arg.name? = some name) (hlist : w.defs.lookup .list name ≠ none) :
    (w.lowering d function).list? (arg.fold c) ≠ none := by
  have hknown := hreads.known?_eq_none h.distinct hlist
  unfold LowerContext.list?
  rw [Expr.name?_fold hknown hname]
  rw [← h.valued.lookup] at hlist
  exact fun hnone => hlist (Option.map_eq_none_iff.mpr hnone)

private theorem Finished.Ready.takes (h : w.Ready d) (hreads : c.Reads w)
    (hfinds : c.argumentsFindings callee signature (Expr.foldAll c args) = [])
    (hlists : (w.typing function known).NamesLists signature.params args)
    (hcont : ∀ e ∈ Expr.foldAll c args, ((w.lowering d function).lowerExpr e).fault? = none) :
    ∀ p ∈ signature.params.zip (Expr.foldAll c args), (w.lowering d function).Takes p.1 p.2 := by
  intro p hp
  have hfinding : c.argumentFindings callee p.1 p.2 = [] := flatMap_eq_nil_iff.mp hfinds p hp
  refine ⟨hcont p.2 (of_mem_zip hp).2, fun field hslot hnone => ?_, fun field hslot => ?_⟩
  · simp [FoldContext.argumentFindings, hslot, hnone] at hfinding
  · rw [Expr.foldAll_eq_map, zip_map_right] at hp
    obtain ⟨q, hq, rfl⟩ := mem_map.mp hp
    obtain ⟨name, hname, hlist⟩ := hlists q hq field hslot
    exact h.list?_fold hreads hname hlist

private theorem Finished.Ready.call_steps (h : w.Ready d) (hreads : c.Reads w)
    {table : Table String Builtin} {types : List DataType} {b : Builtin}
    (hargs : Expr.TypedAll (w.typing function known) args types)
    (hcallee : table.get? callee = some b) (hresolve : b.resolve types = some signature)
    (hlists : (w.typing function known).NamesLists signature.params args)
    (hfinds : c.callFindings table callee (Expr.foldAll c args) = [])
    (hcont : ∀ e ∈ Expr.foldAll c args, ((w.lowering d function).lowerExpr e).fault? = none)
    (span : Span) :
    (w.lowering d function).signature b (Expr.foldAll c args) span = .ok signature ∧
      ∀ step ∈ signature.fieldSteps ++
        (w.lowering d function).placeAll callee signature.params (Expr.foldAll c args),
        step.fault? = none := by
  have hrecorded : (Expr.foldAll c args).mapM (fun e => w.types.get? e.id) = some types := by
    rw [Expr.mapM_recorded_foldAll]
    exact hargs.recorded
  have hsig : c.signature? table callee (Expr.foldAll c args) = some signature := by
    unfold FoldContext.signature? FoldContext.typesOf?
    rw [hcallee, Option.bind_some, hreads.types, hrecorded, Option.bind_some, hresolve]
  unfold FoldContext.callFindings at hfinds
  rw [hsig] at hfinds
  refine ⟨?_, forall_mem_append.mpr ⟨signature.fault?_fieldSteps, ?_⟩⟩
  · unfold LowerContext.signature
    rw [show (Expr.foldAll c args).mapM (fun e => (w.lowering d function).types.get? e.id) =
      some types from hrecorded]
    dsimp only
    rw [hresolve]
  · exact LowerContext.fault?_placeAll (h.takes hreads hfinds hlists hcont) callee

namespace LowerContext

mutual

/-- A typed expression in which folding finds nothing is lowered without a fault. -/
theorem fault?_lowerExpr_fold (h : w.Ready d) (hreads : c.Reads w) : ∀ {e : Expr} {type : DataType},
    e.Typed (w.typing function known) type → e.findings c = [] →
    ((w.lowering d function).lowerExpr (e.fold c)).fault? = none
  | .literal tag value, _, _, _ => fault?_lowerExpr_literal tag value
  | .ident tag name, _, .ident hname _, _ => by
    refine fault?_lowerExpr_literalOr ?_
    exact fault?_lowerName h.valued (h.supports _ hname.1).has tag.span
  | .call tag callee args, _, .call hargs hcallee hresolve hlists _ _, hfinds => by
    obtain ⟨hinner, hcall⟩ := append_eq_nil_iff.mp hfinds
    rw [hreads.catalog] at hcall
    obtain ⟨hsig, hsteps⟩ := h.call_steps hreads hargs hcallee hresolve (hlists trivial) hcall
      (fault?_lowerExpr_foldAll h hreads hargs hinner) tag.span
    refine fault?_lowerExpr_literalOr ?_
    rw [lowerExpr, show (w.lowering d function).catalog.functions.get? callee = _ from hcallee]
    dsimp only
    rw [hsig]
    exact Content.fault?_ofSteps hsteps
  | .cast tag target operand, _, .cast hoperand _ _, hfinds => by
    have hinner := fault?_lowerExpr_fold h hreads hoperand (append_eq_nil_iff.mp hfinds).1
    have hid : (operand.fold c).id = operand.id := congrArg Tag.id (Expr.tag_fold c operand)
    refine fault?_lowerExpr_literalOr ?_
    rw [lowerExpr, hid,
      show (w.lowering d function).types.get? operand.id = _ from hoperand.recorded]
    dsimp only
    split
    · exact hinner
    · exact Content.fault?_ofSteps (by simpa [input, fault?, Content.fault?] using hinner)
  | .not tag operand, _, .not hoperand _, hfinds => by
    refine fault?_lowerExpr_literalOr ?_
    have hinner := fault?_lowerExpr_fold h hreads hoperand hfinds
    exact Content.fault?_ofSteps (by simpa [input, fault?] using hinner)
  | .binary tag op left right, _, .binary hleft hright _ htype, hfinds => by
    obtain ⟨hoperands, _⟩ := append_eq_nil_iff.mp hfinds
    obtain ⟨hleft', hright'⟩ := append_eq_nil_iff.mp hoperands
    have hfirst := fault?_lowerExpr_fold h hreads hleft hleft'
    have hsnd := fault?_lowerExpr_fold h hreads hright hright'
    refine fault?_lowerExpr_literalOr ?_
    rw [lowerExpr, show (w.lowering d function).types.get? tag.id = _ from htype]
    exact Content.fault?_ofSteps (by simpa using ⟨hfirst, hsnd⟩)
  | .group tag inner, _, .group hinner _, hfinds => by
    refine fault?_lowerExpr_literalOr ?_
    exact fault?_lowerExpr_fold h hreads hinner hfinds

private theorem fault?_lowerExpr_foldAll (h : w.Ready d) (hreads : c.Reads w) :
    ∀ {es : List Expr} {types : List DataType}, Expr.TypedAll (w.typing function known) es types →
      Expr.findingsAll c es = [] →
      ∀ e ∈ Expr.foldAll c es, ((w.lowering d function).lowerExpr e).fault? = none
  | [], _, _, _ => by simp [Expr.foldAll]
  | e :: rest, _, .cons hfirst hrest, hfinds => by
    obtain ⟨hfirst', hrest'⟩ := append_eq_nil_iff.mp hfinds
    rw [Expr.foldAll, forall_mem_cons]
    exact ⟨fault?_lowerExpr_fold h hreads hfirst hfirst',
      fault?_lowerExpr_foldAll h hreads hrest hrest'⟩

end

end LowerContext

/-- The input of the first parameter. -/
def Signature.firstInput? (signature : Signature) : Option String :=
  match signature.params.head?.map ParamSpec.slot with
  | some (.input name) => some name
  | _ => none

/-- A first input is a slot. -/
theorem Signature.exists_slot_of_firstInput? (h : signature.firstInput? ≠ none) :
    ∃ name, signature.params.head?.map ParamSpec.slot = some (.input name) := by
  unfold firstInput? at h
  split at h
  · rename_i name heq
    exact ⟨name, heq⟩
  · exact absurd rfl h

/-- Whether a slot names a list. -/
def Slot.isList : Slot → Bool
  | .list _ => true
  | _ => false

/-- What lowering relies on in a catalog: the start of a program is an event, the value of a
property goes into an input, what can be read has a signature, and the parameter of an event is no
list. -/
structure Catalog.Complete (catalog : Catalog) : Prop where
  start : catalog.Starts
  inputs : ∀ property ∈ catalog.properties.values,
    ∀ signature ∈ property.set :: property.changes, signature.firstInput? ≠ none
  readable : ∀ reporter ∈ catalog.reporters.values, reporter.signatures ≠ []
  hats : ∀ event ∈ catalog.events.values, ∀ signature ∈ event.signatures,
    ∀ spec ∈ signature.params, spec.slot.isList = false

/-- The robot's catalog has all that lowering relies on. -/
theorem Robot.complete : Robot.catalog.Complete :=
  ⟨Robot.starts, by decide, by decide, by decide⟩

private theorem Catalog.Complete.reporter?_ne_none (h : catalog.Complete)
    (hname : catalog.reporters.contains name) : catalog.reporter? name ≠ none := by
  obtain ⟨b, hget⟩ := Option.isSome_iff_exists.mp hname
  have hsignatures := h.readable b (Table.mem_values_of_get? hget)
  unfold Catalog.reporter?
  rw [hget]
  simpa using hsignatures

/-- No event takes a list. -/
theorem Catalog.Complete.isList_of_hat? (h : catalog.Complete)
    (hhat : catalog.hat? name = some signature) :
    ∀ spec ∈ signature.params, spec.slot.isList = false := by
  obtain ⟨event, hget, hhead⟩ := Option.bind_eq_some_iff.mp hhat
  exact h.hats event (Table.mem_values_of_get? hget) signature (mem_of_head? hhead)

namespace LowerContext

variable {lc : LowerContext}

private theorem fault?_combine {current : Content} (hcurrent : current.fault? = none)
    (hvalue : (lc.lowerExpr value).fault? = none) (op : BinaryOp) (type : DataType) :
    (lc.combine op type current value).fault? = none :=
  Content.fault?_ofSteps (by simpa using ⟨hcurrent, hvalue⟩)

private theorem fault?_negated (hvalue : (lc.lowerExpr value).fault? = none) :
    (lc.negated value).fault? = none := by
  unfold negated
  split
  · rfl
  · exact Content.fault?_ofSteps (by simpa [input, fault?, Content.fault?] using hvalue)

private theorem fault_assignVariable (hvalue : (lc.lowerExpr value).fault? = none) (v : Variable)
    (op : AssignOp) : (lc.assignVariable v op value).fault = none := by
  have hcurrent : v.reporter.fault? = none := Content.fault?_ofSteps (by simp [entity, fault?])
  unfold assignVariable
  split
  · exact assemble_fault (by simpa [input, entity, fault?] using hvalue)
  · refine assemble_fault ?_
    cases op.binary? with
    | none => simpa [input, entity, fault?] using hvalue
    | some binary =>
      simpa [input, entity, fault?] using fault?_combine hcurrent hvalue binary v.type

private theorem fault_propertyBlock {content : Content}
    (hinput : ∃ input, signature.params.head?.map ParamSpec.slot = some (.input input))
    (hcontent : content.fault? = none) (span : Span) :
    (propertyBlock signature content span).fault = none := by
  refine assemble_fault (forall_mem_append.mpr ⟨signature.fault?_fieldSteps, ?_⟩)
  obtain ⟨input, hslot⟩ := hinput
  simpa [valueStep, hslot, Step.input, Step.fault?] using hcontent

private theorem contains_of_supportsAssign {property : Property} {binary : BinaryOp}
    (hsupp : Analyzer.supportsAssign catalog property target op)
    (hbinary : op.binary? = some binary)
    (hadd : ∀ change, op = .add → property.change? = some change → False)
    (hsub : ∀ change, op = .sub → property.change? = some change → False) :
    catalog.reporters.contains target := by
  have hchange (hop : op = .add ∨ op = .sub) : property.change? = none := by
    cases hchange? : property.change? with
    | none => rfl
    | some change => exact (hop.elim (hadd change · hchange?) (hsub change · hchange?)).elim
  cases op with
  | set => cases hbinary
  | add => simpa [Analyzer.supportsAssign, hchange (Or.inl rfl)] using hsupp
  | sub => simpa [Analyzer.supportsAssign, hchange (Or.inr rfl)] using hsupp
  | _ => exact hsupp

private theorem fault_assignProperty (hcat : lc.catalog.Complete) {property : Property}
    (hproperty : lc.catalog.properties.get? target = some property)
    (hsupp : Analyzer.supportsAssign lc.catalog property target op)
    (hvalue : (lc.lowerExpr value).fault? = none) (span : Span) :
    (lc.assignProperty property target op value span).fault = none := by
  have hinputs (signature : Signature) (h : signature ∈ property.set :: property.changes) :
      ∃ input, signature.params.head?.map ParamSpec.slot = some (.input input) :=
    Signature.exists_slot_of_firstInput?
      (hcat.inputs property (Table.mem_values_of_get? hproperty) signature h)
  have hset := hinputs property.set mem_cons_self
  have hchange (change : Signature) (h : property.change? = some change) :
      ∃ input, change.params.head?.map ParamSpec.slot = some (.input input) :=
    hinputs change (mem_cons_of_mem _ (mem_of_head? h))
  unfold assignProperty
  split
  · refine assemble_fault (forall_mem_append.mpr ⟨property.set.fault?_fieldSteps, ?_⟩)
    refine fault?_placeAll (fun p hp => ?_) target
    obtain ⟨input, hslot⟩ := hset
    cases hparams : property.set.params with
    | nil => simp [hparams] at hp
    | cons spec specs =>
      rw [hparams, zip_cons_cons, zip_nil_right] at hp
      rw [hparams] at hslot
      have hinput : spec.slot = .input input := by simpa using hslot
      rw [mem_singleton.mp hp]
      exact ⟨hvalue, by simp [hinput], by simp [hinput]⟩
  · rename_i heq _
    exact fault_propertyBlock (hchange _ heq) hvalue span
  · rename_i heq _
    exact fault_propertyBlock (hchange _ heq) (fault?_negated hvalue) span
  · rename_i hbinary hadd hsub
    have hreadable := contains_of_supportsAssign hsupp hbinary hadd hsub
    obtain ⟨reporter, hrep⟩ := Option.ne_none_iff_exists'.mp (hcat.reporter?_ne_none hreadable)
    rw [hrep]
    have hcurrent : reporter.reporter.fault? = none :=
      Content.fault?_ofSteps reporter.fault?_fieldSteps
    exact fault_propertyBlock hset (fault?_combine hcurrent hvalue _ property.type) span

end LowerContext

@[simp] private theorem Chain.fault?_content (chain : Chain) :
    chain.content.fault? = chain.fault := rfl

private theorem Chain.fault_ofAssembly {a : Assembly} {rest : Chain} (ha : a.fault = none)
    (hrest : rest.fault = none) (stops : Bool) : (Chain.ofAssembly a stops rest).fault = none := by
  obtain ⟨block, fault⟩ := a
  cases ha
  cases block with
  | none => exact hrest
  | some b =>
    unfold Chain.ofAssembly
    dsimp only
    split
    · rfl
    · unfold Chain.cons
      split <;> exact hrest

section Statements

open Folder LowerContext

/-- A call of neither a function nor an event of the program is checked against the catalog. -/
theorem FoldContext.Reads.callFindings_eq_nil (h : c.Reads w)
    (hfun : w.defs.lookup .function name = none) (hevent : w.defs.lookup .event name = none)
    (hcall : statementFindings c name args = []) :
    c.callFindings w.catalog.statements name args = [] := by
  rw [← h.lookup] at hfun hevent
  have hnew : (c.defs.functions.contains name || c.defs.events.contains name) = false := by
    simp only [Definitions.lookup, Option.map_eq_none_iff] at hfun hevent
    simp [Table.contains, hfun, hevent]
  unfold statementFindings at hcall
  rwa [hnew, h.catalog] at hcall

private theorem Finished.Ready.fault_lowerCall (h : w.Ready d) (hreads : c.Reads w)
    {types : List DataType} (hargs : Expr.TypedAll (w.typing function known) args types)
    (hcan : (w.typing function known).CanCall w.defs name args types)
    (hfinds : Expr.findingsAll c args = [])
    (hcall : statementFindings c name (Expr.foldAll c args) = []) (span : Span) :
    ((w.lowering d function).lowerCall name (Expr.foldAll c args) span).1.fault = none := by
  have hcont := fault?_lowerExpr_foldAll h hreads hargs hfinds
  unfold lowerCall
  simp only [lowering_defs, lowering_catalog]
  cases hfun : d.functions.get? name with
  | some f =>
    refine assemble_fault (forall_mem_append.mpr ⟨fun step hstep => ?_, by simp [fault?]⟩)
    obtain ⟨p, hp, rfl⟩ := mem_map.mp hstep
    exact hcont p.2 (of_mem_zip hp).2
  | none =>
  cases hevent : d.events.get? name with
  | some event =>
    refine assemble_fault fun step hstep => ?_
    rw [mem_singleton.mp hstep]
    exact assemble_fault (by simp [entity, fault?])
  | none =>
    have hnoFunction : w.defs.lookup .function name = none := by
      rw [← h.valued.lookup]
      exact Option.map_eq_none_iff.mpr hfun
    have hnoEvent : w.defs.lookup .event name = none := by
      rw [← h.valued.lookup]
      exact Option.map_eq_none_iff.mpr hevent
    rcases hcan with ⟨f, hf, _⟩ | hdeclared | ⟨b, signature, hb, hresolve, hlists⟩
    · rw [hnoFunction] at hf
      cases hf
    · exact absurd hnoEvent hdeclared
    · have hcall := hreads.callFindings_eq_nil hnoFunction hnoEvent hcall
      obtain ⟨hsig, hsteps⟩ := h.call_steps hreads hargs hb hresolve hlists hcall hcont span
      rw [show w.catalog.statements.get? name = some b from hb]
      dsimp only
      rw [hsig]
      exact assemble_fault hsteps

private theorem Finished.Ready.fault_lowerAssign (h : w.Ready d) (hcomp : w.catalog.Complete)
    (hcan : (w.typing function known).CanAssign w.defs target op)
    (hvalue : ((w.lowering d function).lowerExpr value).fault? = none) (span : Span) :
    ((w.lowering d function).lowerAssign target op value span).fault = none := by
  unfold lowerAssign
  simp only [lowering_defs, lowering_catalog]
  cases hscalar : d.scalars.get? target with
  | some v => exact fault_assignVariable hvalue v op
  | none =>
    rcases hcan with hvar | ⟨property, hproperty, hsupp⟩
    · rw [← h.valued.lookup] at hvar
      exact absurd (Option.map_eq_none_iff.mpr hscalar) hvar
    · rw [show w.catalog.properties.get? target = some property from hproperty]
      exact fault_assignProperty hcomp hproperty hsupp hvalue span

section Folds

variable {fits : Value → DataType → Prop} {params passed : List String} (h : w.Ready d)
  (hcat : c.catalog = w.catalog) (htypes : c.types = w.types)

include hcat htypes

private theorem Finished.Fit.reads (hfit : w.Fit fits passed d) : (c.within d params).Reads w :=
  ⟨hcat, htypes, hfit.lookup⟩

include h

private theorem Finished.Ready.fault?_of_foldsTo {out : Expr} {type : DataType}
    (htyped : e.Typed (w.typing function known) type)
    (hfolds : e.FoldsTo c (w.Fit fits) params passed out) :
    ((w.lowering d function).lowerExpr out).fault? = none := by
  obtain ⟨_, hfit, rfl, hfinds⟩ := hfolds
  exact fault?_lowerExpr_fold h (hfit.reads hcat htypes) htyped hfinds

private theorem Finished.Ready.fault?_lowerLoop :
    ∀ {kind out : LoopKind}, kind.Typed (w.typing function known) → kind.FoldsTo c (w.Fit fits)
      params passed out → ∀ step ∈ ((w.lowering d function).lowerLoop out).2, step.fault? = none
  | .forever, _, _, rfl => by simp [lowerLoop]
  | .times _, _, htyped, ⟨_, rfl, hfolds⟩ | .until _, _, htyped, ⟨_, rfl, hfolds⟩ => by
    simpa [lowerLoop, input, fault?] using h.fault?_of_foldsTo hcat htypes htyped hfolds

end Folds

mutual

private theorem Finished.Ready.fault_lowerStmt (h : w.Ready d)
    (hcat : c.catalog = w.catalog) (htypes : c.types = w.types) (hcomp : w.catalog.Complete) :
    ∀ {stmt out : Stmt} {known passed : List String},
      stmt.Accepted w function known → stmt.FoldsTo c (w.Fit fits) params passed out →
        ((w.lowering d function).lowerStmt out).1.fault = none
  | .varDecl .., _, _, _, _, ⟨_, rfl, _⟩ | .constDecl .., _, _, _, _, ⟨_, rfl, _⟩
  | .funcDecl .., _, _, _, _, ⟨_, rfl, _⟩ | .event .., _, _, _, _, ⟨_, _, rfl, _⟩ => by
    rw [lowerStmt]
  | .call _ _ span, _, _, _, ⟨_, hargs, hcan⟩, ⟨_, hfit, rfl, hfinds, hcall⟩ => by
    exact h.fault_lowerCall (hfit.reads hcat htypes) hargs hcan hfinds hcall span
  | .assign _ _ _ span, _, _, _, ⟨⟨_, htyped⟩, hcan⟩, ⟨_, rfl, hfolds⟩ => by
    exact h.fault_lowerAssign hcomp hcan (h.fault?_of_foldsTo hcat htypes htyped hfolds) span
  | .branch .., _, _, _, ⟨hcond, hthen, helse⟩, ⟨_, _, _, rfl, hfolds, hthenFolds, helseFolds⟩ => by
    have hcontent := h.fault?_of_foldsTo hcat htypes hcond hfolds
    have hthenFault := h.fault_lowerBody hcat htypes hcomp hthen hthenFolds
    have helseFault := h.fault_lowerBody hcat htypes hcomp helse helseFolds
    rw [lowerStmt]
    split
    · exact assemble_fault (by simpa using ⟨hcontent, hthenFault⟩)
    · exact assemble_fault (by simpa using ⟨hcontent, hthenFault, helseFault⟩)
  | .loop .., _, _, _, ⟨hkind, hbody⟩, ⟨_, _, rfl, hfolds, hbodyFolds⟩ => by
    refine assemble_fault (forall_mem_append.mpr ⟨h.fault?_lowerLoop hcat htypes hkind hfolds, ?_⟩)
    simpa [input, fault?] using h.fault_lowerBody hcat htypes hcomp hbody hbodyFolds

private theorem Finished.Ready.fault_lowerBody (h : w.Ready d) (hcat : c.catalog = w.catalog)
    (htypes : c.types = w.types) (hcomp : w.catalog.Complete) :
    ∀ {stmts outs : List Stmt} {known passed : List String},
      Stmt.AcceptedAll w function known stmts →
      Stmt.FoldsAll c (w.Fit fits) params passed stmts outs →
        ((w.lowering d function).lowerBody outs).fault = none
  | [], _, _, _, _, rfl => by rw [lowerBody]
  | _ :: _, _, _, _, ⟨hfirst, hrest⟩, ⟨_, _, rfl, hfirstFolds, hrestFolds⟩ => by
    exact Chain.fault_ofAssembly (h.fault_lowerStmt hcat htypes hcomp hfirst hfirstFolds)
      (h.fault_lowerBody hcat htypes hcomp hrest hrestFolds) _

end

private theorem Finished.Ready.takes_event (h : w.Ready d) (hcomp : w.catalog.Complete)
    (hreads : c.Reads w) {hat : Signature} (hhat : w.catalog.hat? name = some hat)
    (htyped : Option.Rel (fun spec arg => arg.Typed (w.typing function known) spec.type)
      hat.params.head? param)
      (hfinds : ∀ arg ∈ param, arg.findings c = [] ∧ (arg.fold c).value? ≠ none) :
    ∀ p ∈ (hat.params.take 1).zip (param.map (Expr.fold c)).toList,
        (w.lowering d function).Takes p.1 p.2 := by
  intro p hp
  cases param with
  | none => simp at hp
  | some arg =>
    cases hparams : hat.params with
    | nil => simp [hparams] at hp
    | cons spec specs =>
      obtain ⟨hclean, hvalue⟩ := hfinds arg rfl
      rw [hparams] at htyped
      cases htyped with | some hspec => ?_
      have hlist := hcomp.isList_of_hat? hhat spec (by simp [hparams])
      have heq : p = (spec, arg.fold c) := by simpa [hparams] using hp
      subst heq
      refine ⟨fault?_lowerExpr_fold h hreads hspec hclean, fun _ _ => hvalue, fun field hslot => ?_⟩
      rw [show spec.slot = .list field from hslot] at hlist
      cases hlist

private theorem Finished.Ready.fault_lowerEvent (h : w.Ready d) (hcomp : w.catalog.Complete)
    (hreads : c.Reads w) (hcan : (w.typing none known).CanHandle w.defs kind name param)
    (hfinds : ∀ arg ∈ param, arg.findings c = [] ∧ (arg.fold c).value? ≠ none)
    (hbody : ((w.lowering d none).lowerBody body).fault = none) (span : Span) :
    ((w.lowering d none).lowerEvent kind name (param.map (Expr.fold c)) body span).fault =
    none := by
  have hstep : ((w.lowering d none).bodyStep body).fault? = none := hbody
  have hother (hkind : kind ≠ .custom) : ∃ hat, w.catalog.hat? name = some hat ∧
      ∀ step ∈ hat.fieldSteps ++ (w.lowering d none).placeAll ("@" ++ name) (hat.params.take 1)
        (param.map (Expr.fold c)).toList ++ [(w.lowering d none).bodyStep body],
        step.fault? = none := by
    unfold TypingContext.CanHandle at hcan
    rw [if_neg hkind] at hcan
    obtain ⟨hat, hhat, htyped⟩ := hcan
    have htakes := h.takes_event hcomp hreads hhat htyped hfinds
    refine ⟨hat, hhat, ?_⟩
    rw [forall_mem_append, forall_mem_append, forall_mem_singleton]
    exact ⟨⟨hat.fault?_fieldSteps, fault?_placeAll htakes _⟩, hstep⟩
  cases kind with
  | custom =>
    unfold lowerEvent
    simp only [lowering_defs]
    have hevent : w.defs.lookup .event name ≠ none := hcan.1
    rw [← h.valued.lookup] at hevent
    cases hget : d.events.get? name with
    | none => exact absurd (Option.map_eq_none_iff.mpr hget) hevent
    | some event => exact assemble_fault (by simpa [entity, fault?] using hstep)
  | builtin | startup =>
    obtain ⟨hat, hhat, hsteps⟩ := hother (by rintro ⟨⟩)
    simp only [lowerEvent, lowering_catalog, hhat]
    exact assemble_fault hsteps

private theorem fault_lowerPrototype (f : Function) : (lowerPrototype f).fault = none := by
  refine assemble_fault (forall_mem_append.mpr ⟨fun step hstep => ?_, by simp [fault?]⟩)
  obtain ⟨param, _, rfl⟩ := mem_map.mp hstep
  exact assemble_fault (by simp [text, fault?])

private theorem Finished.Ready.fault_lowerFunction (h : w.Ready d)
    (hdeclared : w.defs.lookup .function name ≠ none)
    (hbody : ((w.lowering d (some name)).lowerBody body).fault = none) (span : Span) :
    ((w.lowering d none).lowerFunction name body span).fault = none := by
  unfold lowerFunction
  simp only [lowering_defs]
  rw [← h.valued.lookup] at hdeclared
  cases hget : d.functions.get? name with
  | none => exact absurd (Option.map_eq_none_iff.mpr hget) hdeclared
  | some f =>
    have hcontext : w.lowering d (some name) = { w.lowering d none with function := some f } := by
      unfold Finished.lowering Finished.context
      rw [Option.bind_some, show d.functions.get? name = some f from hget]
    rw [hcontext] at hbody
    refine assemble_fault ?_
    rw [forall_mem_cons, forall_mem_singleton]
    exact ⟨fault_lowerPrototype f, hbody⟩

private theorem Expr.HandlesTo.value?_ne_none
    {out : Expr} (h : e.HandlesTo c inv params passed kind name out) : out.value? ≠ none := by
  obtain ⟨_, _, _, _, hevent⟩ := h
  unfold eventFindings at hevent
  split at hevent
  · cases hevent
  · rename_i hsome
    simpa using hsome

/-- An accepted item in which folding finds nothing is lowered without a fault. -/
theorem Finished.Ready.fault_lowerItem (h : w.Ready d) (hcomp : w.catalog.Complete)
    (hcat : c.catalog = w.catalog) (htypes : c.types = w.types) {stmt out : Stmt}
    (hacc : stmt.Accepted w none known) (hfolds : stmt.FoldsTo c (w.Fit fits) params passed out) :
    ((w.lowering d none).lowerItem out).fault = none := by
  cases stmt with
  | event kind name param body span endLine =>
    obtain ⟨hcan, hbody⟩ := hacc
    obtain ⟨param', body', rfl, hparam, hbodyFolds⟩ := hfolds
    have hfault := h.fault_lowerBody hcat htypes hcomp hbody hbodyFolds
    cases hparam with
    | none =>
      have hreads : (c.within w.defs params).Reads w := ⟨hcat, htypes, rfl⟩
      exact h.fault_lowerEvent hcomp hreads hcan (fun _ harg => nomatch harg) hfault span
    | some hparam =>
      have hvalue := hparam.value?_ne_none
      obtain ⟨_, hfit, rfl, hfinds, _⟩ := hparam
      refine h.fault_lowerEvent hcomp (hfit.reads hcat htypes) hcan (fun arg harg => ?_) hfault span
      exact Option.mem_some.mp harg ▸ ⟨hfinds, hvalue⟩
  | funcDecl name fields body span endLine =>
    obtain ⟨_, ⟨_, f, first, hf, _⟩, hbody⟩ := hacc
    obtain ⟨body', rfl, hbodyFolds⟩ := hfolds
    exact h.fault_lowerFunction (by simp [hf])
      (h.fault_lowerBody hcat htypes hcomp hbody hbodyFolds) span
  | varDecl | constDecl | assign =>
    obtain ⟨_, rfl, _⟩ := hfolds
    rfl
  | call | loop =>
    obtain ⟨_, _, rfl, _⟩ := hfolds
    rfl
  | branch =>
    obtain ⟨_, _, _, rfl, _⟩ := hfolds
    rfl

end Statements

private theorem Stmt.exists_of_foldsAll {stmts outs : List Stmt}
    (hacc : AcceptedAll w function known stmts) (hfolds : FoldsAll c inv params passed stmts outs) :
    ∀ out ∈ outs, ∃ (stmt : Stmt) (known passed : List String), stmt.Accepted w function known ∧
      stmt.FoldsTo c inv params passed out := by
  induction stmts generalizing known passed outs with
  | nil =>
    cases hfolds
    exact forall_mem_nil _
  | cons stmt rest ih =>
    obtain ⟨_, _, rfl, hfirst, hrest⟩ := hfolds
    exact forall_mem_cons.mpr ⟨⟨stmt, known, passed, hacc.1, hfirst⟩, ih hacc.2 hrest⟩

namespace Finished.Accepts

variable {program : Program} (h : w.Accepts program.statements) (pictures : Pictures)
  (hclean : (program.fold w.catalog w.types pictures w.defs).errors = [])

include h hclean

private theorem fold_known :
    Stmt.ItemsFold ⟨w.catalog, w.types, pictures, w.defs, []⟩ (w.Fit fun _ _ => True)
      program.statements (program.fold w.catalog w.types pictures w.defs).program.statements ∧
      w.Fit (fun _ _ => True)
      (Stmt.constantsAll (program.statements.filter Stmt.isConstant) ++ Stmt.constantsAll
      (program.statements.filter Stmt.isOther))
      (program.fold w.catalog w.types pictures w.defs).defs :=
  fold_fits (fun _ _ _ _ => trivial) h.accepted hclean

/-- An accepted program in which folding finds no error can be lowered with the definitions that
folding leaves. -/
theorem ready_fold : w.Ready (program.fold w.catalog w.types pictures w.defs).defs := by
  obtain ⟨_, hfit⟩ := h.fold_known pictures hclean
  refine ⟨⟨hfit.lookup, fun name hname => ?_⟩, h.distinct, h.supports⟩
  rw [hfit.lookup] at hname
  obtain ⟨decl, hdecl⟩ := Option.ne_none_iff_exists'.mp hname
  obtain ⟨k, _, rfl⟩ := Option.map_eq_some_iff.mp hdecl
  obtain ⟨value, hvalue, _⟩ := hfit.values name (h.constants name hname) _ hdecl
  exact hvalue ▸ Option.some_ne_none value

/-- Lowering finds no error in an accepted program in which folding finds none. -/
theorem lower_errors (hcomp : w.catalog.Complete) :
    ((program.fold w.catalog w.types pictures w.defs).program.lower w.catalog w.types
      (program.fold w.catalog w.types pictures w.defs).defs).errors = [] := by
  have hready := h.ready_fold pictures hclean
  obtain ⟨hfolds, _⟩ := h.fold_known pictures hclean
  refine filterMap_eq_nil_iff.mpr fun script hscript => ?_
  obtain ⟨item, hitem, rfl⟩ := mem_map.mp hscript
  cases hother : item.isOther with
  | false =>
    cases item with
    | constDecl => rfl
    | _ => cases hother
  | true =>
    obtain ⟨stmt, _, _, hacc, hfolds⟩ :=
      Stmt.exists_of_foldsAll h.accepted.others hfolds.others item (mem_filter.mpr ⟨hitem, hother⟩)
    exact hready.fault_lowerItem hcomp rfl rfl hacc hfolds

end Finished.Accepts

end BlockScript
