import BlockScript.Proofs.Entities
import BlockScript.Proofs.Parts

/-!
# Steps of the analysis

Whatever the analysis does to an expression is put together from a few steps: it looks up what is
declared, marks what is used, reports an error or fails, and records the types of nodes. So a class
of analyzers that has these steps, and has one analyzer after another if it has both, has all
analyzers of expressions, also where they fail.
-/

namespace BlockScript

variable {arg : Expr} {args : List Expr}

open List

namespace Analyzer

/-- Whether a class of analyzers is closed under the steps that analyze expressions: failing and
reporting at places with a property, and recording the types of nodes with tags of another. -/
structure Closed (T : Tag → Prop) (P : Span → Prop) (C : ∀ ⦃α : Type⦄, Analyzer α → Prop) :
    Prop where
  span : ∀ {tag : Tag}, T tag → P tag.span
  pure : ∀ {α : Type} (a : α), C (pure a : Analyzer α)
  bind : ∀ {α β : Type} {x : Analyzer α} {f : α → Analyzer β}, C x → (∀ a, C (f a)) → C (x >>= f)
  look : ∀ {α : Type} {f : AnalysisState → Analyzer α}, (∀ s, C (f s)) →
    (∀ s s', s'.defs = s.defs → s'.pending = s.pending → f s' = f s) → C (get >>= f)
  fail : ∀ {α : Type} {span : Span}, P span → ∀ fault, C (fail fault span : Analyzer α)
  report : ∀ {d : Diagnostic}, d.isError = true → P d.span → C (report d)
  reporting : ∀ {α : Type} {x : Analyzer α}, C x → C (reporting x)
  mark : ∀ {change : Definitions → Definitions}, (∀ d, (change d).bare = d.bare) → C (define change)
  recordType : ∀ {tag : Tag}, T tag → ∀ type, C (recordType tag.id type)

namespace Closed

variable {T : Tag → Prop} {P : Span → Prop} {C : ∀ ⦃α : Type⦄, Analyzer α → Prop} {α β : Type}

section Steps

variable (hC : Closed T P C)

include hC

private theorem fail_bind {f : α → Analyzer β} {span : Span} (h : P span) (fault : AnalysisFault) :
    C (Analyzer.fail fault span >>= f) :=
  hC.fail h fault

/-- A report of a fault. -/
theorem reportFault {span : Span} (h : P span) (fault : AnalysisFault) :
    C (reportFault fault span) :=
  hC.report rfl h

private theorem spans {es : List Expr} (h : Expr.TaggedAll T es) : ∀ e ∈ es, P e.span :=
  fun e he => hC.span (Expr.taggedAll_iff.mp h e he).tag

private theorem defs : C defs :=
  hC.look (fun _ => hC.pure _) fun _ _ h _ => by rw [h]

/-- All members of a list. -/
theorem forM {f : β → Analyzer Unit} {l : List β} (hf : ∀ b ∈ l, C (f b)) : C (l.forM f) := by
  induction l with
  | nil => exact hC.pure _
  | cons b rest ih =>
    rw [forall_mem_cons] at hf
    exact hC.bind hf.1 fun _ => ih hf.2

private theorem foldlM {f : α → β → Analyzer α} {l : List β} (hf : ∀ a, ∀ b ∈ l, C (f a b))
    (init : α) : C (l.foldlM f init) := by
  induction l generalizing init with
  | nil => exact hC.pure _
  | cons b rest ih =>
    rw [foldlM_cons]
    refine hC.bind (hf init b mem_cons_self) fun a => ?_
    exact ih (fun a b hb => hf a b (mem_cons_of_mem _ hb)) a

end Steps

/-! ### Expressions -/

/-- Options are faulty at arguments. -/
theorem exists_of_optionFault? {d : Definitions} {callee : String} {spec : ParamSpec}
    {found : Diagnostic} (h : optionFault? d callee spec arg = some found) :
    ∃ fault, found = .analysis fault arg.span := by
  unfold optionFault? at h
  split at h
  · split at h
    · cases h
    · exact ⟨_, (Option.some.inj h).symm⟩
  · cases h

section Calls

variable (hC : Closed T P C) {span : Span} (h : P span)

include hC

/-- The check of an option. -/
theorem checkOption (callee : String) (spec : ParamSpec) (harg : P arg.span) :
    C (checkOption callee spec arg) := by
  refine hC.bind hC.defs fun d => ?_
  split
  · rename_i found hfound
    obtain ⟨fault, rfl⟩ := exists_of_optionFault? hfound
    exact hC.reportFault harg fault
  · exact hC.pure _

/-- The check of an argument. -/
theorem checkArgument (callee : String) (spec : ParamSpec) (harg : P arg.span) :
    C (checkArgument callee spec arg) := by
  have hoption := hC.checkOption callee spec harg
  unfold Analyzer.checkArgument
  dsimp only
  split
  · refine hC.bind hC.defs fun d => ?_
    split
    · exact hC.bind (hC.reportFault harg _) fun _ => hoption
    · exact hoption
  · exact hoption

/-- The check of all arguments. -/
theorem checkArguments (callee : String) (signature : Signature)
    (hargs : ∀ arg ∈ args, P arg.span) : C (checkArguments callee signature args) :=
  hC.forM fun p hp => hC.checkArgument callee p.1 (hargs p.2 (of_mem_zip hp).2)

include h

private theorem resolve (b : Builtin) (types : List DataType) : C (resolve b types span) := by
  unfold Analyzer.resolve
  split
  · exact hC.pure _
  · exact hC.fail h _

/-- The type of a call. -/
theorem callType (scope : Scope) (name : String) (hargs : ∀ arg ∈ args, P arg.span)
    (types : List DataType) : C (callType scope name args types span) := by
  unfold Analyzer.callType
  dsimp only
  split
  · refine hC.bind (hC.resolve h _ _) fun signature =>
      hC.bind (hC.checkArguments name signature hargs) fun _ => ?_
    split
    · exact hC.pure _
    · exact hC.fail h _
  · refine hC.bind hC.defs fun d => ?_
    split
    · exact hC.bind (hC.mark fun d => d.bare_useAs .function name) fun _ => hC.fail_bind h _
    split
    · exact hC.fail_bind h _
    · exact hC.fail h _

/-- A call as a statement. -/
theorem callStatement (scope : Scope) (name : String) (hargs : ∀ arg ∈ args, P arg.span)
    (types : List DataType) : C (callStatement scope name args types span) := by
  refine hC.bind hC.defs fun d => ?_
  dsimp only
  split
  · refine hC.bind (hC.mark fun d => d.bare_useAs .function name) fun _ => ?_
    split
    · exact hC.fail_bind h _
    · exact hC.pure _
  split
  · refine hC.bind (hC.mark fun d => d.bare_useAs .event name) fun _ => ?_
    split
    · exact hC.fail_bind h _
    · exact hC.pure _
  split
  · refine hC.bind (hC.resolve h _ _) fun signature => ?_
    exact hC.bind (hC.checkArguments name signature hargs) fun _ => hC.pure _
  split
  · exact hC.fail_bind h _
  · exact hC.fail h _

/-- The type of a name. -/
theorem nameType (scope : Scope) (name : String) : C (nameType scope name span) := by
  refine hC.look (fun s => ?_) fun s s' hdefs hpend => by simp only [hdefs, hpend]
  dsimp only
  split
  · exact hC.pure _
  split
  · exact hC.fail_bind h _
  split
  · exact hC.bind (hC.mark fun d => d.bare_useAs .variable name) fun _ => hC.pure _
  split
  · exact hC.bind (hC.mark fun d => d.bare_useAs .list name) fun _ => hC.pure _
  split
  · exact hC.bind (hC.mark fun d => d.bare_useAs .constant name) fun _ => hC.pure _
  split
  · exact hC.fail_bind h _
  split
  · exact hC.pure _
  split
  · exact hC.fail_bind h _
  split
  · exact hC.fail_bind h _
  · exact hC.fail h _

private theorem castType (target source : DataType) : C (castType target source span) := by
  unfold Analyzer.castType
  split
  · exact hC.pure _
  · exact hC.fail h _

private theorem binaryType (op : BinaryOp) (left right : DataType) :
    C (binaryType op left right span) := by
  unfold Analyzer.binaryType
  split
  · exact hC.pure _
  · exact hC.fail h _

private theorem notType (operand : DataType) : C (notType operand span) := by
  unfold Analyzer.notType
  split
  · exact hC.pure _
  · exact hC.fail h _

/-- The check of an assignment. -/
theorem checkAssign (name : String) (type : DataType) (op : AssignOp) (found : DataType) :
    C (checkAssign name type op found span) := by
  unfold Analyzer.checkAssign
  split
  · exact hC.fail h _
  · exact hC.pure _

/-- The check that a name is free. -/
theorem checkUnique (scope : Scope) (name : String) : C (checkUnique scope name span) := by
  refine hC.look (fun s => ?_) fun s s' hdefs hpend => by simp only [hdefs, hpend]
  dsimp only
  split
  · exact hC.bind (hC.reportFault h _) fun _ => hC.pure _
  split
  · exact hC.bind (hC.reportFault h _) fun _ => hC.pure _
  · exact hC.pure _

end Calls

/-- The check of parameters. -/
theorem checkParameters (hC : Closed T P C) (seen : List String) {params : List Parameter}
    (h : ∀ param ∈ params, P param.span) : C (checkParameters seen params) := by
  induction params generalizing seen with
  | nil => exact hC.pure _
  | cons param rest ih =>
    rw [forall_mem_cons] at h
    unfold Analyzer.checkParameters
    split
    · exact hC.bind (hC.reportFault h.1 _) fun _ => ih seen h.2
    · dsimp only
      split
      · exact hC.bind (hC.reportFault h.1 _) fun _ => ih _ h.2
      · exact ih _ h.2

/-- The record of a type. -/
theorem recorded (hC : Closed T P C) {tag : Tag} (h : T tag) (type : DataType) :
    C (recorded tag type) :=
  hC.bind (hC.recordType h type) fun _ => hC.pure _

mutual

/-- The type of an expression. -/
theorem exprType (hC : Closed T P C) (scope : Scope) :
    ∀ {e : Expr}, e.Tagged T → C (Analyzer.exprType scope e)
  | .literal tag value, h => by
    rw [Analyzer.exprType]
    exact hC.recorded h _
  | .ident tag name, h => by
    rw [Analyzer.exprType]
    exact hC.bind (hC.nameType (hC.span h) scope name) (hC.recorded h)
  | .call tag callee args, h => by
    rw [Analyzer.exprType]
    refine hC.bind (exprTypes hC scope h.2) fun types => ?_
    exact hC.bind (hC.callType (hC.span h.1) scope callee (hC.spans h.2) types) (hC.recorded h.1)
  | .cast tag target operand, h => by
    rw [Analyzer.exprType]
    refine hC.bind (exprType hC scope h.2) fun source => ?_
    exact hC.bind (hC.castType (hC.span h.1) target source) (hC.recorded h.1)
  | .list tag items, h => by
    rw [Analyzer.exprType]
    exact hC.fail (hC.span h.1) _
  | .not tag operand, h => by
    rw [Analyzer.exprType]
    refine hC.bind (exprType hC scope h.2) fun type => ?_
    exact hC.bind (hC.notType (hC.span h.1) type) (hC.recorded h.1)
  | .binary tag op left right, h => by
    rw [Analyzer.exprType]
    refine hC.bind (exprType hC scope h.2.1) fun leftType =>
      hC.bind (exprType hC scope h.2.2) fun rightType => ?_
    exact hC.bind (hC.binaryType (hC.span h.1) op leftType rightType) (hC.recorded h.1)
  | .group tag inner, h => by
    rw [Analyzer.exprType]
    exact hC.bind (exprType hC scope h.2) (hC.recorded h.1)

/-- The types of expressions. -/
theorem exprTypes (hC : Closed T P C) (scope : Scope) : ∀ {es : List Expr}, Expr.TaggedAll T es →
    C (Analyzer.exprTypes scope es)
  | [], _ => by
    rw [Analyzer.exprTypes]
    exact hC.pure _
  | e :: rest, h => by
    rw [Analyzer.exprTypes]
    exact hC.bind (exprType hC scope h.1) fun _ => hC.bind (exprTypes hC scope h.2) fun _ =>
      hC.pure _

end

section Values

variable (hC : Closed T P C) (scope : Scope)

include hC

/-- An expected type. -/
theorem expectType {e : Expr} (h : e.Tagged T) (expected : DataType)
    (mismatch : DataType → AnalysisFault) : C (expectType scope e expected mismatch) := by
  refine hC.bind (hC.reporting (hC.exprType scope h)) fun found => ?_
  split
  · split
    · exact hC.reportFault (hC.span h.tag) _
    · exact hC.pure _
  · exact hC.pure _

/-- A call with its arguments. -/
theorem call (name : String) (hargs : Expr.TaggedAll T args) {span : Span} (h : P span) :
    C (do Analyzer.callStatement scope name args (← Analyzer.exprTypes scope args) span) :=
  hC.bind (hC.exprTypes scope hargs) fun types => hC.callStatement h scope name
    (hC.spans hargs) types

/-- The header of a loop. -/
theorem loopHeader {kind : LoopKind} (h : kind.Tagged T) : C (loopHeader scope kind) := by
  cases kind with
  | forever => exact hC.pure _
  | times count => exact hC.expectType scope h _ _
  | «until» condition => exact hC.expectType scope h _ _

/-- An assignment with its value. -/
theorem assignment (target : String) (op : AssignOp) {value : Expr} (hvalue : value.Tagged T)
    {span : Span} (h : P span) : C (assignment scope target op value span) := by
  refine hC.bind (hC.exprType scope hvalue) fun found => hC.look (fun s => ?_)
    fun s s' hdefs hpend => by simp only [hdefs, hpend]
  have hassign (type : DataType) := hC.checkAssign (hC.span hvalue.tag) target type op found
  dsimp only
  split
  · exact hC.fail_bind h _
  split
  · split
    · refine hC.bind (hC.mark fun d => d.bare_useAs .variable target) fun _ => ?_
      exact hC.bind (hassign _) fun _ => hC.pure _
    · exact hC.bind (hassign _) fun _ => hC.pure _
  split
  · exact hC.fail_bind h _
  split
  · exact hC.fail_bind h _
  split
  · exact hC.fail_bind h _
  split
  · refine hC.bind (hassign _) fun _ => ?_
    split
    · exact hC.fail_bind h _
    · exact hC.pure _
  split
  · exact hC.fail_bind h _
  · exact hC.fail h _

/-- The parameter of an event. -/
theorem checkEvent (name : String) {param : Option Expr} (hparam : ∀ e ∈ param, e.Tagged T)
    {span : Span} (h : P span) : C (checkEvent scope name param span) := by
  unfold Analyzer.checkEvent
  split
  · exact hC.reportFault h _
  split
  · exact hC.pure _
  · exact hC.reportFault h _
  · exact hC.reportFault (hC.span (hparam _ rfl).tag) _
  · have harg := hC.span (hparam _ rfl).tag
    refine hC.bind (hC.reporting (hC.exprType scope (hparam _ rfl))) fun found => ?_
    split
    · split
      · exact hC.checkOption _ _ harg
      · exact hC.reportFault harg _
    · exact hC.pure _

variable (name : String)

/-- The type of an initializer. -/
theorem initializerType {value : Expr} (h : value.Tagged T) :
    C (initializerType scope name value) :=
  hC.exprType _ h

private theorem elementType (known : Option DataType) {item : Expr} (h : item.Tagged T) :
    C (elementType scope name known item) := by
  refine hC.bind (hC.reporting (hC.initializerType scope name h)) fun found => ?_
  split
  · exact hC.pure _
  split
  · dsimp only
    split
    · exact hC.bind (hC.reportFault (hC.span h.tag) _) fun _ => hC.pure _
    · exact hC.pure _
  · split
    · exact hC.pure _
    · exact hC.bind (hC.reportFault (hC.span h.tag) _) fun _ => hC.pure _

private theorem itemsType (declared : Option DataType) {value : Expr} (hvalue : value.Tagged T)
    {items : List Expr} (hitems : Expr.TaggedAll T items) {span : Span} (h : P span) :
    C (itemsType scope name declared value items span) := by
  have helements : C (items.foldlM (Analyzer.elementType scope name) declared) :=
    hC.foldlM (fun known item hitem =>
      hC.elementType scope name known (Expr.taggedAll_iff.mp hitems item hitem)) declared
  refine hC.bind helements fun element => ?_
  dsimp only
  split
  · refine hC.bind (hC.recordType hvalue.tag _) fun _ => ?_
    exact hC.bind (hC.recordType hvalue.ungrouped.tag _) fun _ => hC.pure _
  · split
    · exact hC.bind (hC.reportFault h _) fun _ => hC.pure _
    · exact hC.pure _

variable (type : Option DataType) {value : Option Expr} (hvalue : ∀ e ∈ value, e.Tagged T)
  {span : Span} (h : P span)

include hvalue h

/-- The elements of a list. -/
theorem listElement : C (listElement scope name type value span) := by
  unfold Analyzer.listElement
  split
  · exact hC.bind (hC.reportFault h _) fun _ => hC.pure _
  · dsimp only
    split
    · exact hC.pure _
    · rename_i value
      have hvalue := hvalue value rfl
      split
      · rename_i items hitems
        exact hC.itemsType scope name _ hvalue (hvalue.items hitems) h
      · exact hC.bind (hC.reportFault (hC.span hvalue.tag) _) fun _ => hC.pure _

/-- The initializer of a variable. -/
theorem scalarInitializer (hdefault : C (defaultInitializer name type span)) :
    C (scalarInitializer scope name type value span) := by
  unfold Analyzer.scalarInitializer
  dsimp only
  split
  · exact hC.fail_bind h _
  split
  · exact hdefault
  · rename_i value
    have hvalue := hvalue value rfl
    refine hC.bind (hC.initializerType scope name hvalue) fun found => ?_
    split
    · exact hC.fail_bind (hC.span hvalue.tag) _
    split
    · exact hC.fail_bind (hC.span hvalue.tag) _
    split
    · exact hC.fail_bind (hC.span hvalue.tag) _
    · exact hC.pure _

end Values

end Closed

/-! ### Declarations -/

/-- The changes that declare something at a place with a property. -/
inductive Declares (P : Span → Prop) : (Definitions → Definitions) → Prop
  | addVariable {span : Span} (h : P span) (name : String) (type : DataType) :
    Declares P (·.addVariable name type span)
  | addList {span : Span} (h : P span) (name : String) (element : DataType) :
    Declares P (·.addList name element span)
  | addConstant {span : Span} (h : P span) (name : String) (type : DataType)
    (value : Option Value) : Declares P (·.addConstant name type value span)
  | addFunction {span : Span} (h : P span) (name : String) (params : List (String × DataType))
    (endLine : Nat) : Declares P (·.addFunction name params span endLine)
  | addEvent {span : Span} (h : P span) (name : String) (endLine : Nat) :
    Declares P (·.addEvent name span endLine)

/-- Items are declared one by one. -/
theorem declareItems_cons (scope : Scope) (item : Stmt) (counts : Bool)
    (rest : List (Stmt × Bool)) : declareItems scope ((item, counts) :: rest) =
      (if counts then declareItem scope item else pure (.settled item, [])) >>= fun first => do
        let more ← declareItems scope rest
        return (first.1 :: more.1, first.2 ++ more.2) := by
  cases counts <;> rfl

/-- Whether a class of analyzers is closed under declarations, too, and under announcements. -/
structure Declaring (T : Tag → Prop) (P : Span → Prop) (C : ∀ ⦃α : Type⦄, Analyzer α → Prop) : Prop
    extends Closed T P C where
  define : ∀ {change : Definitions → Definitions}, Declares P change → C (define change)
  pending : ∀ change : Table String Span → Table String Span,
    C (modify fun s => { s with pending := change s.pending } : Analyzer PUnit)

namespace Declaring

variable {T : Tag → Prop} {P : Span → Prop} {C : ∀ ⦃α : Type⦄, Analyzer α → Prop} {α : Type}
  {N : String → Prop} {W : Prop} (hC : Declaring T P C) (scope : Scope)

include hC

/-- The announcement of an item. -/
theorem announce {item : Stmt} (h : item.Of ⟨T, P, N, W⟩) : C (announce scope item) := by
  have hspan : P item.span := h.span
  have hunique (name : String) := hC.checkUnique hspan scope name
  unfold Analyzer.announce
  split
  · refine hC.bind (hunique _) fun free => ?_
    split
    · exact hC.bind (hC.pending (·.insert _ _)) fun _ => hC.pure _
    · exact hC.pure _
  · refine hC.bind (hunique _) fun free => ?_
    split
    · exact hC.bind (hC.pending (·.insert _ _)) fun _ => hC.pure _
    · exact hC.pure _
  · refine hC.bind (hunique _) fun free => ?_
    split
    · refine hC.bind (hC.checkParameters [] h.2.1) fun _ => ?_
      exact hC.bind (hC.define (.addFunction hspan _ _ _)) fun _ => hC.pure _
    · exact hC.pure _
  · refine hC.bind (hunique _) fun free => ?_
    split
    · exact hC.bind (hC.define (.addEvent hspan _ _)) fun _ => hC.pure _
    · exact hC.pure _
  · exact hC.pure _

/-- The declaration of a constant. -/
theorem declareConstant (name : String) (type : Option DataType) {value : Expr}
    (hvalue : value.Tagged T) {span : Span} (h : P span) :
    C (declareConstant scope name type value span) := by
  refine hC.bind (hC.reporting (hC.initializerType scope name hvalue)) fun found => ?_
  have hreport := hC.reportFault (hC.span hvalue.tag)
  split
  · split
    · exact hreport _
    · dsimp only
      split
      · exact hC.bind (hreport _) fun _ => hC.define (.addConstant h name _ _)
      · exact hC.define (.addConstant h name _ _)
  · exact hC.pure _

/-- The declaration of a variable. -/
theorem declareVariable (name : String) (type : Option DataType) {value : Option Expr}
    (hvalue : ∀ e ∈ value, e.Tagged T) (hoisted : Bool) {span : Span} (h : P span)
    (hdefault : C (defaultInitializer name type span)) :
    C (declareVariable scope name type value hoisted span) := by
  unfold Analyzer.declareVariable
  dsimp only
  split
  · refine hC.bind (hC.listElement scope name type hvalue h) fun element => ?_
    split
    · exact hC.bind (hC.define (.addList h name _)) fun _ => hC.pure _
    · exact hC.pure _
  split
  · split
    · exact hC.bind (hC.define (.addVariable h name _)) fun _ => hC.pure _
    · exact hC.pure _
  · refine hC.bind (hC.reporting (hC.scalarInitializer scope name type hvalue h hdefault))
      fun found => ?_
    split
    · exact hC.bind (hC.define (.addVariable h name _)) fun _ => hC.pure _
    · exact hC.pure _

variable (hdefault : ∀ {span : Span}, P span → ∀ name type, C (defaultInitializer name type span))

include hdefault

/-- The declaration of an item. -/
theorem declareItem {item : Stmt} (h : item.Of ⟨T, P, N, W⟩) : C (declareItem scope item) := by
  unfold Analyzer.declareItem
  split
  · refine hC.bind (hC.pending (·.erase _)) fun _ => ?_
    exact hC.bind (hC.declareVariable scope _ _ h.2.1 _ h.1 (hdefault h.1 _ _)) fun _ => hC.pure _
  · refine hC.bind (hC.pending (·.erase _)) fun _ => ?_
    exact hC.bind (hC.declareConstant scope _ _ h.2.1 h.1) fun _ => hC.pure _
  · exact hC.pure _

/-- The declarations of items. -/
theorem declareItems {items : List (Stmt × Bool)} (h : ∀ p ∈ items, p.1.Of ⟨T, P, N, W⟩) :
    C (declareItems scope items) := by
  induction items with
  | nil => exact hC.pure _
  | cons first rest ih =>
    obtain ⟨item, counts⟩ := first
    rw [forall_mem_cons] at h
    rw [declareItems_cons]
    refine hC.bind ?_ fun _ => hC.bind (ih h.2) fun _ => hC.pure _
    split
    · exact hC.declareItem scope hdefault h.1
    · exact hC.pure _

end Declaring

end Analyzer

end BlockScript
