import BlockScript.Proofs.Inferred

/-!
# Marks of statements

Clean steps of statements, beyond those of expressions: what a call, an assignment, a condition, the
parameter of an event and a list literal leave is a function of the view, too. A clean declaration
adds just what it declares.
-/

namespace BlockScript

variable {β : Type}

open AnalysisState List

namespace View

variable (v : View)

/-- Whether a call in statement position stops, with its marks. -/
def calls? (callee : String) (args : List Expr) (types : List DataType) :
    Option (Bool × List Mark) :=
  match v.lookup .function callee with
  | some (.function f) =>
    if types = f.paramTypes then some (false, [.use .function callee]) else none
  | _ =>
    if (v.lookup .event callee).isSome then
      if args.isEmpty then some (false, [.use .event callee]) else none
    else do
      let b ← v.catalog.statements.get? callee
      let signature ← b.resolve types
      if v.takesAll signature.params args then some (signature.terminates, []) else none

/-- The marks of an assignment of a value with a type, apart from those of the value. -/
def assigns? (target : String) (op : AssignOp) (found : DataType) : Option (List Mark) :=
  if (v.param? target).isSome then none
  else match v.lookup .variable target with
    | some (.scalar w) =>
      if w.type.accepts op found then some (if op = .set then [] else [.use .variable target])
        else none
    | _ =>
      if v.isList target || (v.lookup .constant target).isSome || v.isPending target then none
      else do
        let property ← v.catalog.properties.get? target
        if property.type.accepts op found && Analyzer.supportsAssign v.catalog property
          target op then
          some []
        else none

/-- The marks of an expression that has a type. -/
def expects? (e : Expr) (expected : DataType) : Option (Unit × List Mark) :=
  (e.inferred? v).bind fun p => if p.1 = expected then some ((), p.2) else none

/-- The marks of the header of a loop. -/
def heads? : LoopKind → Option (Unit × List Mark)
  | .forever => some ((), [])
  | .times count => v.expects? count .number
  | .until condition => v.expects? condition .boolean

/-- The marks of an argument for the parameter of an event, if there are both or neither. -/
def handled? : Option ParamSpec → Option Expr → Option (Unit × List Mark)
  | none, none => some ((), [])
  | some spec, some arg =>
    (v.expects? arg spec.type).bind fun p => if v.fits spec arg then some p else none
  | _, _ => none

/-- The marks of the parameter of an event of the catalog. -/
def handles? (name : String) (param : Option Expr) : Option (Unit × List Mark) :=
  (v.catalog.hat? name).bind fun signature => v.handled? signature.params.head? param

/-- The type of list elements after one more element, with the marks of the element. -/
def element? (known : Option DataType) (item : Expr) : Option (Option DataType × List Mark) :=
  (item.inferred? v).bind fun p =>
    match known with
    | some expected => if expected = p.1 then some (known, p.2) else none
    | none => if p.1.isScalar then some (some p.1, p.2) else none

/-- The type of list elements after more elements, with the marks of the elements. -/
def elements? (known : Option DataType) : List Expr → Option (Option DataType × List Mark)
  | [] => some (known, [])
  | item :: rest =>
    (v.element? known item).bind fun p => (elements? p.1 rest).map fun q => (q.1, p.2 ++ q.2)

/-- The element type of a list literal, with its marks. -/
def items? (declared : Option DataType) (value : Expr) (items : List Expr) :
    Option (Option DataType × List Mark) :=
  (v.elements? declared items).bind fun p =>
    match p.1.bind DataType.listOf? with
    | some type => some (p.1, p.2 ++ [.record value.id type, .record value.ungrouped.id type])
    | none => if items.isEmpty then none else some p

/-- The element type of a list declaration, with its marks. -/
def listed? (type : Option DataType) (value : Option Expr) : Option (Option DataType × List Mark) :=
  if (type.filter (!·.isList)).isSome then none
  else match value with
    | none => some (type.bind DataType.element?, [])
    | some value => value.items?.bind (v.items? (type.bind DataType.element?) value)

end View

namespace Analyzer

variable {scope : Scope} {nodes : Nat → Prop} {s s' : AnalysisState} (name : String)
  (known : Option DataType)

/-- A call in statement position leaves the mark of what is called. -/
theorem leaves_callStatement (callee : String) (args : List Expr) (types : List DataType)
    (span : Span) :
    Leaves scope nodes (callStatement scope callee args types span) fun v =>
    v.calls? callee args types where
  reports := declaring_reports.callStatement trivial scope callee (fun _ _ => trivial) types
  clean_iff {s stops s'} := by
    unfold callStatement View.calls?
    rw [clean_defs_bind_iff]
    cases hfun : s.defs.functions.get? callee with
    | some f =>
      have hlook :
          (scope.view s).lookup .function callee = some (.function { f with used := false }) :=
        Definitions.lookup_function hfun
      have hparams : { f with used := false }.paramTypes = f.paramTypes := rfl
      rw [hlook]
      dsimp only
      rw [clean_define_bind_iff, hparams]
      by_cases htypes : types = f.paramTypes
      · rw [if_neg (not_not_intro htypes), if_pos htypes, clean_pure_iff]
        simp [marked, mark, Definitions.useAs]
      · rw [if_pos htypes, if_neg htypes]
        simp only [reduceCtorEq, false_and, exists_false, iff_false]
        exact not_clean_fail_bind _ _
    | none =>
      have hlook : (scope.view s).lookup .function callee = none := by
        simp [Scope.view, Definitions.lookup, hfun]
      have hevents :
          s.defs.events.contains callee = ((scope.view s).lookup .event callee).isSome := by
        simp [Scope.view, Definitions.lookup, Table.contains]
      rw [hlook, hevents]
      dsimp only
      cases ((scope.view s).lookup .event callee).isSome with
      | true =>
        rw [if_pos rfl, if_pos rfl, clean_define_bind_iff]
        cases args with
        | nil => simp [marked, mark, Definitions.useAs]
        | cons arg rest =>
          simp only [reduceCtorEq, false_and, exists_false, iff_false, isEmpty_cons, Bool.not_false,
            if_true, Bool.false_eq_true, if_false]
          exact not_clean_fail_bind _ _
      | false =>
        rw [if_neg Bool.false_ne_true, if_neg Bool.false_ne_true,
          show (scope.view s).catalog = scope.catalog from rfl]
        cases scope.catalog.statements.get? callee with
        | none =>
          simp only [Option.bind_eq_bind, Option.bind_none, reduceCtorEq, false_and, exists_false,
            iff_false]
          split <;> exact not_clean_fail _ _
        | some b =>
          dsimp only [Option.bind_eq_bind, Option.bind_some]
          cases hresolve : b.resolve types with
          | none => simp [resolve, hresolve]
          | some signature =>
            have hcheck : Within Reports (checkArguments callee signature args) :=
              declaring_reports.checkArguments callee signature fun _ _ => trivial
            simp only [resolve, hresolve, pure_bind, Option.bind_some]
            rw [clean_bind_iff hcheck fun _ => .pure _]
            simp only [clean_checkArguments_iff scope, clean_pure_iff]
            cases (scope.view s).takesAll signature.params args <;> simp
  of_mem {s stops marks} h := by
    unfold View.calls? at h
    split at h
    · rename_i hlook
      split at h
      · cases h
        simp [Mark.Of, show s.defs.lookup .function callee = _ from hlook]
      · cases h
    · split at h
      · rename_i hevent
        split at h
        · cases h
          exact forall_mem_singleton.mpr (Option.isSome_iff_ne_none.mp hevent)
        · cases h
      · obtain ⟨_, _, h⟩ := Option.bind_eq_some_iff.mp h
        obtain ⟨_, _, h⟩ := Option.bind_eq_some_iff.mp h
        split at h
        · cases h
          exact forall_mem_nil _
        · cases h

private theorem clean_checkAssign_bind_iff {name : String} {type : DataType} {op : AssignOp}
    {found : DataType} {span : Span} {f : Unit → Analyzer β} {b : β} :
    Clean (checkAssign name type op found span >>= f) s b s' ↔
      type.accepts op found ∧ Clean (f ()) s b s' := by
  unfold checkAssign assignFault?
  cases type.accepts op found with
  | true => simp
  | false =>
    simp only [Bool.false_eq_true, if_false, false_and, iff_false]
    split
    · exact not_clean_fail_bind _ _
    · split at * <;> contradiction

private theorem reports_checkAssign_bind (type : DataType) (op : AssignOp)
    (found : DataType) (span : Span) {f : Unit → Analyzer β} (hf : Within Reports (f ())) :
    Within Reports (checkAssign name type op found span >>= f) :=
  Within.bind (declaring_reports.checkAssign trivial name type op found) fun _ => hf

/-- Assigning leaves marks. -/
theorem of_mem_assigns? {target : String} {op : AssignOp} {found : DataType} {marks : List Mark}
    (h : (scope.view s).assigns? target op found = some marks) :
    ∀ m ∈ marks, m.Of s.defs nodes := by
  unfold View.assigns? at h
  split at h
  · cases h
  · split at h
    · rename_i hlook
      split at h
      · cases h
        split
        · exact forall_mem_nil _
        · exact forall_mem_singleton.mpr
            (by simp [Mark.Of, show s.defs.lookup .variable target = _ from hlook])
      · cases h
    · split at h
      · cases h
      · obtain ⟨_, _, h⟩ := Option.bind_eq_some_iff.mp h
        split at h
        · cases h
          exact forall_mem_nil _
        · cases h

private theorem Within.fail_bind [Std.Refl R] (fault : AnalysisFault) (span : Span) :
    Within R (Analyzer.fail fault span >>= f) :=
  fun s => ⟨Std.Refl.refl s, rfl⟩

/-- An assignment leaves the marks of its value, and that of its target if the target is read. -/
theorem leaves_assignment (target : String) (op : AssignOp) {value : Expr}
    (h : ∀ id ∈ value.ids, nodes id) (span : Span) :
    Leaves scope nodes (assignment scope target op value span) fun v =>
    (value.inferred? v).bind fun p =>
      (v.assigns? target op p.1).map fun marks => ((), p.2 ++ marks) := by
  refine (@Leaves.bind _ _ _ _ _ _ _ (fun found v => (v.assigns? target op found).map ((), ·))
    (leaves_exprType scope value h) fun found =>
    ⟨?_, fun {s a s'} => ?_, fun {s a marks} hfound => ?_⟩).congr fun v => ?_
  · refine Within.get.bind fun s => ?_
    dsimp only
    split
    · exact .fail_bind _ _
    · split
      · split
        · exact (reports_define _).bind fun _ => reports_checkAssign_bind _ _ _ _ _ (.pure _)
        · exact reports_checkAssign_bind _ _ _ _ _ (.pure _)
      · split
        · exact .fail_bind _ _
        · split
          · exact .fail_bind _ _
          · split
            · exact .fail_bind _ _
            · split
              · refine reports_checkAssign_bind _ _ _ _ _ ?_
                split
                · exact .fail_bind _ _
                · exact .pure _
              · split
                · exact .fail_bind _ _
                · exact .fail _ _
  · have hlists : s.defs.lists.contains target = (scope.view s).isList target := by
      simp [View.isList, Scope.view, Definitions.lookup, Table.contains]
    have hconsts :
        s.defs.constants.contains target = ((scope.view s).lookup .constant target).isSome := by
      simp [Scope.view, Definitions.lookup, Table.contains]
    rw [clean_get_bind_iff]
    unfold View.assigns?
    dsimp only
    rw [show (scope.view s).param? target = scope.param? s.defs target from rfl]
    cases (scope.param? s.defs target).isSome with
    | true => simp
    | false =>
      rw [if_neg Bool.false_ne_true, if_neg Bool.false_ne_true]
      cases hscalar : s.defs.scalars.get? target with
      | some w =>
        have hlook :
            (scope.view s).lookup .variable target = some (.scalar { w with used := false }) := by
          simp [Scope.view, Definitions.lookup, hscalar]
        rw [hlook]
        dsimp only
        by_cases hop : op = .set
        · rw [if_neg (not_not_intro hop), clean_checkAssign_bind_iff, if_pos hop]
          cases w.type.accepts op found <;> simp
        · rw [if_pos hop, clean_define_bind_iff, clean_checkAssign_bind_iff, if_neg hop]
          cases w.type.accepts op found <;> simp [marked, mark, Definitions.useAs]
      | none =>
        have hlook : (scope.view s).lookup .variable target = none := by
          simp [Scope.view, Definitions.lookup, hscalar]
        rw [hlook, hlists, hconsts, show s.pending.contains target = (scope.view s).isPending
          target from rfl]
        dsimp only
        cases (scope.view s).isList target with
        | true => simp
        | false =>
        cases ((scope.view s).lookup .constant target).isSome with
        | true => simp
        | false =>
        cases (scope.view s).isPending target with
        | true => simp
        | false =>
        simp only [Bool.false_eq_true, if_false, Bool.or_self]
        rw [show (scope.view s).catalog = scope.catalog from rfl]
        cases scope.catalog.properties.get? target with
        | none =>
          simp only [Option.bind_eq_bind, Option.bind_none, Option.map_none, reduceCtorEq,
            false_and, exists_false, iff_false]
          split <;> exact not_clean_fail _ _
        | some property =>
          dsimp only [Option.bind_eq_bind, Option.bind_some]
          rw [clean_checkAssign_bind_iff]
          cases property.type.accepts op found with
          | false => simp
          | true =>
            cases supportsAssign scope.catalog property target op with
            | false => simp
            | true => simp
  · obtain ⟨found', hfound', heq⟩ := Option.map_eq_some_iff.mp hfound
    cases heq
    exact of_mem_assigns? hfound'
  · cases value.inferred? v with
    | none => rfl
    | some p => cases h : v.assigns? target op p.1 <;> simp [h]

private theorem Leaves.reportFault (fault : AnalysisFault) (span : Span) :
    Leaves scope nodes (reportFault fault span) fun _ => none where
  reports := declaring_reports.reportFault trivial fault
  clean_iff := by simp
  of_mem := nofun

/-- Expecting leaves marks. -/
theorem leaves_expectType {e : Expr} (h : ∀ id ∈ e.ids, nodes id) (expected : DataType)
    (mismatch : DataType → AnalysisFault) :
    Leaves scope nodes (expectType scope e expected mismatch) fun v => v.expects? e expected := by
  refine (@Leaves.bind _ _ _ _ _ _ _
    (fun found _ => if found.all (· = expected) then some ((), []) else none)
    (leaves_exprType scope e h).reporting fun found => ?_).congr fun v => ?_
  · cases found with
    | none => exact .pure _
    | some found =>
      by_cases hfound : found = expected
      · simpa [hfound] using Leaves.pure ()
      · simpa [hfound] using Leaves.reportFault (mismatch found) e.span
  · unfold View.expects?
    cases e.inferred? v with
    | none => rfl
    | some p => by_cases h : p.1 = expected <;> simp [h]

/-- A header leaves its marks. -/
theorem leaves_loopHeader : ∀ {kind : LoopKind}, (∀ id ∈ kind.ids, nodes id) →
    Leaves scope nodes (loopHeader scope kind) fun v => v.heads? kind
  | .forever, _ => .pure ()
  | .times _, h => leaves_expectType h _ _
  | .until _, h => leaves_expectType h _ _

private theorem leaves_checkOption (callee : String) (spec : ParamSpec) (arg : Expr) :
    Leaves scope nodes (checkOption callee spec arg)
      fun v => (if v.fits spec arg then some () else none).map (·, []) := by
  refine .guard (declaring_reports.checkOption callee spec trivial) fun {s a s'} => ?_
  rw [clean_checkOption_iff scope]
  simp

/-- The check of an event leaves the marks of its parameter. -/
theorem leaves_checkEvent {param : Option Expr} (h : ∀ id ∈ Expr.idsOf? param, nodes id)
    (span : Span) :
    Leaves scope nodes (checkEvent scope name param span) fun v => v.handles? name param := by
  unfold checkEvent
  cases hhat : scope.catalog.hat? name with
  | none =>
    exact (Leaves.reportFault _ _).congr_view fun s => by simp [View.handles?, Scope.view, hhat]
  | some signature =>
    suffices hhandled : Leaves scope nodes _ fun v => v.handled? signature.params.head? param from
      hhandled.congr_view fun s => by simp [View.handles?, Scope.view, hhat]
    dsimp only
    cases signature.params.head? with
    | none =>
      cases param with
      | none => exact .pure ()
      | some arg => exact .reportFault _ _
    | some spec =>
      cases param with
      | none => exact .reportFault _ _
      | some arg =>
        have harg : ∀ id ∈ arg.ids, nodes id :=
          fun id hid => h id (by simpa [Expr.idsOf?] using hid)
        refine (@Leaves.bind _ _ _ _ _ _ _ (fun found v =>
          if found.all (· = spec.type) then
            (if found.all fun _ => v.fits spec arg then some () else none).map (·, [])
          else none) (leaves_exprType scope arg harg).reporting fun found => ?_).congr fun v => ?_
        · cases found with
          | none => exact .pure _
          | some found =>
            by_cases hfound : found = spec.type
            · simpa [hfound] using leaves_checkOption _ spec arg
            · simpa [hfound] using Leaves.reportFault _ _
        · rw [View.handled?, View.expects?]
          cases arg.inferred? v with
          | none => rfl
          | some p =>
            by_cases h : p.1 = spec.type <;> by_cases hfits :
              v.fits spec arg = true <;> simp [h, hfits]

private theorem Leaves.reportFault_bind {f : Unit → Analyzer β} (fault : AnalysisFault)
    (span : Span) (hf : Within Reports (f ())) :
    Leaves scope nodes (Analyzer.reportFault fault span >>= f) fun _ => none where
  reports := .bind (declaring_reports.reportFault trivial fault) fun _ => hf
  clean_iff := by simp [not_clean_reportFault_bind fault span hf]
  of_mem := nofun

private theorem leaves_elementType {item : Expr} (h : ∀ id ∈ item.ids, nodes id) :
    Leaves { scope with declaring := some name } nodes (elementType scope name known item)
      fun v => v.element? known item := by
  refine (@Leaves.bind _ _ _ _ _ _ _ (fun found _ =>
    match found, known with
    | none, known => some (known, [])
    | some found, some expected => if expected = found then some (some expected, []) else none
    | some found, none => if found.isScalar then some (some found, []) else none)
    (leaves_exprType _ item h).reporting fun found => ?_).congr fun v => ?_
  · cases found with
    | none => exact .pure _
    | some found =>
      cases known with
      | some expected =>
        by_cases hfound : expected = found
        · simpa [hfound] using Leaves.pure (some found)
        · dsimp only
          rw [if_neg hfound, if_pos hfound]
          exact .reportFault_bind _ _ (.pure _)
      | none =>
        cases hscalar : found.isScalar with
        | true => simpa [hscalar] using Leaves.pure (some found)
        | false =>
          dsimp only
          rw [hscalar]
          exact .reportFault_bind _ _ (.pure _)
  · unfold View.element?
    cases item.inferred? v with
    | none => rfl
    | some p =>
      cases known with
      | some expected => by_cases h : expected = p.1 <;> simp [h]
      | none => cases h : p.1.isScalar <;> simp [h]

private theorem leaves_elements {items : List Expr} (h : ∀ id ∈ Expr.idsAll items, nodes id) :
    Leaves { scope with declaring := some name } nodes (items.foldlM (elementType scope name) known)
      fun v => v.elements? known items := by
  induction items generalizing known with
  | nil => exact .pure known
  | cons item rest ih =>
    obtain ⟨hitem, hrest⟩ := forall_mem_append.mp h
    rw [foldlM_cons]
    exact ((leaves_elementType name known hitem).bind fun known => ih known hrest).congr fun v =>
      rfl

private theorem leaves_recordType {id : Nat} (hid : nodes id) (type : DataType) :
    Leaves scope nodes (recordType id type) fun _ => some ((), [.record id type]) where
  reports _ := .refl _
  clean_iff := by
    simp [marked, mark]
  of_mem h := by
    cases h
    exact forall_mem_singleton.mpr hid

private theorem leaves_itemsType (declared : Option DataType) {value : Expr} {items : List Expr}
    (hitems : value.items? = some items) (h : ∀ id ∈ value.ids, nodes id) (span : Span) :
    Leaves { scope with declaring := some name } nodes
    (itemsType scope name declared value items span) fun v => v.items? declared value items := by
  have hnodes : ∀ id ∈ Expr.idsAll items, nodes id := fun id hid =>
    h id ((Expr.idsAll_sublist_of_items? hitems).subset hid)
  refine (@Leaves.bind _ _ _ _ _ _ _ (fun element _ =>
    match element.bind DataType.listOf? with
    | some type => some (element, [.record value.id type, .record value.ungrouped.id type])
    | none => if items.isEmpty then none else some (element, []))
    (leaves_elements name declared hnodes) fun element => ?_).congr fun v => ?_
  · cases element.bind DataType.listOf? with
    | some type =>
      have hungrouped : nodes value.ungrouped.id :=
        h _ (value.ids_ungrouped.subset value.ungrouped.id_mem_ids)
      exact ((leaves_recordType (h _ value.id_mem_ids) type).bind fun _ =>
        (leaves_recordType hungrouped type).bind fun _ => .pure element).congr fun v => rfl
    | none =>
      cases items with
      | nil => exact .reportFault_bind _ _ (.pure _)
      | cons item rest => exact .pure element
  · unfold View.items?
    cases v.elements? declared items with
    | none => rfl
    | some p => cases h : p.1.bind DataType.listOf? <;> cases items <;> simp [h]

/-- The initializer of a list leaves the marks of its items and the type of the list. -/
theorem leaves_listElement (type : Option DataType) {value : Option Expr}
    (h : ∀ id ∈ Expr.idsOf? value, nodes id) (span : Span) :
    Leaves { scope with declaring := some name } nodes (listElement scope name type value span)
      fun v => v.listed? type value := by
  unfold listElement View.listed?
  cases type.filter (!·.isList) with
  | some scalar => exact .reportFault_bind _ _ (.pure _)
  | none =>
    cases value with
    | none => exact .pure _
    | some value =>
      cases hitems : value.items? with
      | some items =>
        simpa [hitems] using leaves_itemsType name _ hitems (by simpa [Expr.idsOf?] using h) span
      | none =>
        dsimp only
        rw [hitems]
        exact .reportFault_bind _ _ (.pure _)

section Declarations

variable {name : String} {span : Span}

/-- The check of a name reports nothing if the name is free. -/
theorem clean_checkUnique_iff {free : Bool} :
    Clean (checkUnique scope name span) s free s' ↔ free ∧ Free scope name s ∧ s = s' := by
  have htaken {fault : AnalysisFault} :
      ¬ Clean (reportFault fault span >>= fun _ => pure false) s free s' :=
    not_clean_reportFault_bind fault span (.pure _)
  unfold checkUnique Free Scope.param?
  rw [clean_get_bind_iff]
  dsimp only
  cases hparam : (scope.function? s.defs).bind (·.param? name) with
  | some param =>
    obtain ⟨f, hf, hparam⟩ := Option.bind_eq_some_iff.mp hparam
    have howner : (scope.function? s.defs).filter (fun f => (f.param? name).isSome) = some f := by
      rw [hf, Option.filter_some_pos (by simp [hparam])]
    rw [howner]
    simpa using htaken
  | none =>
    have howner : (scope.function? s.defs).filter (fun f => (f.param? name).isSome) = none := by
      rw [Option.filter_eq_none_iff]
      intro f hf
      simp [Option.bind_eq_none_iff.mp hparam f hf]
    rw [howner, ← Definitions.declaredAt?_eq_none_iff, ← orElse_eq_none_iff]
    dsimp only
    cases s.defs.declaredAt? name <|> s.pending.get? name with
    | some previous => simpa using htaken
    | none => simp [eq_comm]

/-- A clean declaration of a constant adds it after the marks of its value. -/
theorem clean_declareConstant_iff {type : Option DataType} {value : Expr} {a : Unit} :
    Clean (declareConstant scope name type value span) s a s' ↔
      ∃ found marks, value.inferred? ({ scope with declaring := some name }.view s) =
      some (found, marks) ∧
        found.isList = false ∧ type.getD found = found ∧
        (s.marked marks).declare (·.addConstant name found value.value? span) = s' := by
  have hvalue : Leaves { scope with declaring := some name } (fun _ => True)
      (reporting (initializerType scope name value)) _ :=
    (leaves_exprType { scope with declaring := some name } value fun _ _ => trivial).reporting
  have hreport (fault : AnalysisFault) (span : Span) : Within Reports (reportFault fault span) :=
    declaring_reports.reportFault trivial fault
  unfold declareConstant
  rw [clean_bind_iff hvalue.reports fun found => ?_]
  · simp only [hvalue.clean_iff]
    refine ⟨?_, ?_⟩
    · rintro ⟨_, _, ⟨marks, hmarks, rfl⟩, h⟩
      obtain ⟨⟨found, marks'⟩, hfound, heq⟩ := Option.map_eq_some_iff.mp hmarks
      cases heq
      dsimp only at h
      split at h
      · simp at h
      · rename_i hlist
        split at h
        · exact absurd h (not_clean_reportFault_bind _ _ (reports_define _))
        · rename_i hdecl
          have htype := not_not.mp hdecl
          rw [htype, clean_define_iff] at h
          exact ⟨found, marks', hfound, by simpa using hlist, htype, h⟩
    · rintro ⟨found, marks, hfound, hlist, htype, rfl⟩
      refine ⟨some found, _, ⟨marks, by rw [hfound]; rfl, rfl⟩, ?_⟩
      dsimp only
      rw [if_neg (by simp [hlist]), if_neg (not_not_intro htype), htype, clean_define_iff]
  · split
    · split
      · exact hreport _ _
      · dsimp only
        split
        · exact (hreport _ _).bind fun _ => reports_define _
        · exact reports_define _
    · exact .pure _

section Variables

variable {type : Option DataType} {value : Option Expr} {result : Stmt × Option Stmt}
  {p : Expr × DataType}

/-- A clean declaration of a list adds it after the marks of its items. -/
theorem clean_declareVariable_list_iff {hoisted : Bool}
    (hlist : ((value.bind Expr.items?).isSome || type.any DataType.isList)) :
    Clean (declareVariable scope name type value hoisted span) s result s' ↔ ∃ element marks,
        ({ scope with declaring := some name }.view s).listed? type value = some (element, marks) ∧
        result = (.varDecl name type value hoisted span, none) ∧
        (s.marked marks).declare (fun d => element.elim d (d.addList name · span)) = s' := by
  have hvalue : Leaves { scope with declaring := some name } (fun _ => True)
      (listElement scope name type value span) _ :=
      leaves_listElement name type (fun _ _ => trivial) span
  unfold declareVariable
  dsimp only
  rw [if_pos hlist, clean_bind_iff hvalue.reports fun element => by
    cases element with
    | none => exact .pure _
    | some element => exact (reports_define _).bind fun _ => .pure _]
  simp only [hvalue.clean_iff]
  refine ⟨?_, ?_⟩
  · rintro ⟨element, _, ⟨marks, hmarks, rfl⟩, h⟩
    refine ⟨element, marks, hmarks, ?_⟩
    cases element with
    | none =>
      rw [clean_pure_iff] at h
      exact ⟨h.1.symm, h.2⟩
    | some element =>
      rw [clean_define_bind_iff, clean_pure_iff] at h
      exact ⟨h.1.symm, h.2⟩
  · rintro ⟨element, marks, hmarks, rfl, rfl⟩
    refine ⟨element, _, ⟨marks, hmarks, rfl⟩, ?_⟩
    cases element with
    | none => exact clean_pure_iff.mpr ⟨rfl, rfl⟩
    | some element => exact clean_pure_iff.mpr ⟨rfl, rfl⟩

/-- A clean declaration without initializer adds the variable. -/
theorem clean_declareVariable_hoisted_iff
    (hlist : ((value.bind Expr.items?).isSome || type.any DataType.isList) = false) :
    Clean (declareVariable scope name type value true span) s result s' ↔
      result = (.varDecl name type value true span, none) ∧
        s.declare (fun d => type.elim d (d.addVariable name · span)) = s' := by
  unfold declareVariable
  dsimp only
  rw [if_neg (by simp [hlist]), if_pos rfl]
  cases type with
  | none =>
    rw [clean_pure_iff]
    exact and_congr_left' eq_comm
  | some type =>
    rw [clean_define_bind_iff, clean_pure_iff]
    exact and_congr_left' eq_comm

/-- Defaults only add reports. -/
theorem reports_defaultInitializer (name : String) (type : Option DataType) (span : Span) :
    Within Reports (defaultInitializer name type span) :=
  (within_defaultInitializer name type span :
    Within (Grows ⟨fun _ _ => True, fun _ => True⟩) _).reports_of_grows

private theorem reports_scalarInitializer (scope : Scope) (name : String) (type : Option DataType)
    (value : Option Expr) (span : Span) :
    Within Reports (scalarInitializer scope name type value span) :=
  declaring_reports.scalarInitializer scope name type (fun e _ => e.tagged_true) trivial
    (reports_defaultInitializer name type span)

private theorem dataType_of_default? {type : DataType} {value : Value}
    (h : type.default? = some value) : value.dataType = type := by
  cases type <;> cases h <;> rfl

private theorem exists_of_clean_defaultInitializer
    (h : Clean (defaultInitializer name type span) s p s') :
    ∃ default, p.1 = .literal ⟨s.nextId, span⟩ default ∧ p.2.default? = some default ∧
    type = some p.2 ∧
      { s with nextId := s.nextId + 1 }.marked [.record s.nextId p.2] = s' := by
  unfold defaultInitializer at h
  cases type with
  | none => exact absurd h (not_clean_fail _ _)
  | some type =>
    dsimp only at h
    cases hdefault : type.default? with
    | none =>
      rw [hdefault] at h
      exact absurd h (not_clean_fail _ _)
    | some default =>
      rw [hdefault] at h
      obtain ⟨hrun, _⟩ := h
      cases hrun
      exact ⟨default, rfl, hdefault, rfl, rfl⟩

/-- Whether a variable starts with an expression and has a type, where `found` is the type of the
expression: it starts with its initializer, or with the default of its type, as a literal with a
given number. -/
def Starts (next : Nat) (type : Option DataType) (value : Option Expr) (span : Span)
    (found target : DataType) (init : Expr) : Prop :=
  match value with
  | some value => init = value ∧ target = type.getD found
  | none => type = some target ∧
      ∃ default, target.default? = some default ∧ init = .literal ⟨next, span⟩ default

private theorem exists_of_clean_scalarInitializer
    (h : Clean (scalarInitializer scope name type value span) s p s') :
    ∃ found marks next, p.1.inferred? ({ scope with declaring := some name }.view s) =
    some (found, marks) ∧
      p.2.assignable found ∧ (type.any DataType.isList = false → p.2.isList = false) ∧
      (∀ id ∈ p.1.ids, id ∈ Expr.idsOf? value ∨ s.nextId ≤ id ∧ id < next) ∧
      Starts s.nextId type value span found p.2 p.1 ∧
      s.nextId ≤ next ∧ { s with nextId := next }.marked marks = s' := by
  unfold scalarInitializer at h
  dsimp only at h
  split at h
  · exact absurd h (not_clean_fail_bind _ _)
  cases value with
  | none =>
    obtain ⟨default, hliteral, hdefault, htarget, rfl⟩ := exists_of_clean_defaultInitializer h
    refine ⟨p.2, [.record s.nextId p.2], s.nextId + 1, ?_, by simp [DataType.assignable],
      fun hlist => by simpa [htarget] using hlist, ?_, ⟨htarget, default, hdefault, hliteral⟩,
      Nat.le_succ _, rfl⟩
    · rw [hliteral, Expr.inferred?, dataType_of_default? hdefault]
    · rw [hliteral]
      exact forall_mem_singleton.mpr (Or.inr ⟨le_rfl, Nat.lt_succ_self _⟩)
  | some value =>
    have hvalue : Leaves { scope with declaring := some name } (fun _ => True)
        (initializerType scope name value) value.inferred? :=
      leaves_exprType { scope with declaring := some name } value fun _ _ => trivial
    dsimp only at h
    rw [clean_bind_iff hvalue.reports fun found => by
      split
      · exact .fail_bind _ _
      · split
        · exact .fail_bind _ _
        · split
          · exact .fail_bind _ _
          · exact .pure _] at h
    obtain ⟨found, _, hfound, h⟩ := h
    obtain ⟨marks, hmarks, rfl⟩ := hvalue.clean_iff.mp hfound
    split at h
    · exact absurd h (not_clean_fail_bind _ _)
    · split at h
      · exact absurd h (not_clean_fail_bind _ _)
      · rename_i hlist
        split at h
        · exact absurd h (not_clean_fail_bind _ _)
        · rename_i hassign
          obtain ⟨rfl, rfl⟩ := clean_pure_iff.mp h
          refine ⟨found, marks, s.nextId, hmarks, by simpa using hassign, fun htype => ?_,
            fun id hid => Or.inl (by simpa [Expr.idsOf?] using hid), ⟨rfl, rfl⟩, le_rfl, rfl⟩
          cases type with
          | none => simpa using hlist
          | some type => exact htype

/-- A clean declaration with an initializer makes an assignment of it, and adds the variable after
the marks of the initializer. -/
theorem exists_of_clean_declareVariable
    (hlist : ((value.bind Expr.items?).isSome || type.any DataType.isList) = false)
    (h : Clean (declareVariable scope name type value false span) s result s') :
    ∃ init target found marks next, result =
        (.varDecl name (some target) none true span, some (.assign name .set init span)) ∧
      init.inferred? ({ scope with declaring := some name }.view s) = some (found, marks) ∧
      target.assignable found ∧ target.isList = false ∧
      (∀ id ∈ init.ids, id ∈ Expr.idsOf? value ∨ s.nextId ≤ id ∧ id < next) ∧
      Starts s.nextId type value span found target init ∧ s.nextId ≤ next ∧
      ({ s with nextId := next }.marked marks).declare (·.addVariable name target span) = s' := by
  have hvalue : Within Reports (scalarInitializer scope name type value span) :=
    reports_scalarInitializer scope name type value span
  unfold declareVariable at h
  dsimp only at h
  rw [if_neg (by simp [hlist]), if_neg Bool.false_ne_true,
    clean_bind_iff (within_reports_reporting hvalue) fun found => by
      split
      · exact (reports_define _).bind fun _ => .pure _
      · exact .pure _] at h
  obtain ⟨found, s₁, hfound, h⟩ := h
  obtain ⟨⟨init, target⟩, rfl, hclean⟩ := (clean_reporting_iff hvalue).mp hfound
  obtain ⟨found, marks, next, hmarks, hassign, htarget, hids, hstarts, hnext, rfl⟩ :=
    exists_of_clean_scalarInitializer hclean
  rw [clean_define_bind_iff, clean_pure_iff] at h
  exact ⟨init, target, found, marks, next, h.1.symm, hmarks, hassign,
    htarget (Bool.or_eq_false_iff.mp hlist).2, hids, hstarts, hnext, h.2⟩

end Variables

end Declarations

end Analyzer

end BlockScript
