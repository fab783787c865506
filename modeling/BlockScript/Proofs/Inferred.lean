import BlockScript.Proofs.Marks

/-!
# Inferred types

Where the analysis of an expression is clean, its type and the marks it leaves are a function of the
expression and the view. What is inferred of an expression depends on what its names denote only.
Where the analysis returns a type, whatever it reports, the expression is typed.
-/

namespace BlockScript

variable {arg : Expr} {spec : ParamSpec} {callee : String} {a : Unit} {es : List Expr}

open AnalysisState List
open Option (bind_eq_some_iff)

namespace View

variable (v : View)

/-- Whether a name is that of a list. -/
def isList (name : String) : Bool := (v.lookup .list name).isSome

/-- The value of an argument that is known before it is run. -/
def staticValue? (e : Expr) : Option Value :=
  match e.ungrouped with
  | .literal _ value => some value
  | .ident _ name => v.value? name
  | _ => none

/-- Whether an argument is one of the options of its parameter, as far as its value is known. -/
def fits (spec : ParamSpec) (arg : Expr) : Bool :=
  match spec.options, v.staticValue? arg with
  | some options, some (.string value) => options.contains value
  | _, _ => true

/-- Whether an argument names a list where one is needed. -/
def names : Slot → Expr → Bool
  | .list _, arg => arg.name?.any v.isList
  | _, _ => true

/-- Whether an argument can stand for its parameter: lists are named, and options are respected. -/
def takes (spec : ParamSpec) (arg : Expr) : Bool := v.names spec.slot arg && v.fits spec arg

/-- Whether arguments can stand for their parameters. -/
def takesAll (params : List ParamSpec) (args : List Expr) : Bool :=
  (params.zip args).all fun p => v.takes p.1 p.2

/-- The type of a call of an entry of the catalog with arguments of some types. -/
def callType? (callee : String) (args : List Expr) (types : List DataType) : Option DataType := do
  let b ← v.catalog.functions.get? callee
  let signature ← b.resolve types
  if v.takesAll signature.params args then signature.result else none

end View

mutual

/-- The type of an expression, with the marks that its analysis leaves. -/
def Expr.inferred? (v : View) : Expr → Option (DataType × List Mark)
  | .literal tag value => some (value.dataType, [.record tag.id value.dataType])
  | .ident tag name => do
    let entity ← v.entity? name
    return (entity.type, entity.marks name ++ [.record tag.id entity.type])
  | .call tag callee args => do
    let (types, marks) ← inferredAll? v args
    let type ← v.callType? callee args types
    return (type, marks ++ [.record tag.id type])
  | .cast tag target operand => do
    let (source, marks) ← inferred? v operand
    if source.castable target then return (target, marks ++ [.record tag.id target]) else none
  | .list .. => none
  | .not tag operand => do
    let (type, marks) ← inferred? v operand
    if type = .boolean then return (.boolean, marks ++ [.record tag.id .boolean]) else none
  | .binary tag op left right => do
    let (leftType, leftMarks) ← inferred? v left
    let (rightType, rightMarks) ← inferred? v right
    let type ← op.resultType? leftType rightType
    return (type, leftMarks ++ rightMarks ++ [.record tag.id type])
  | .group tag inner => do
    let (type, marks) ← inferred? v inner
    return (type, marks ++ [.record tag.id type])

/-- The types of expressions, with the marks that their analysis leaves. -/
def Expr.inferredAll? (v : View) : List Expr → Option (List DataType × List Mark)
  | [] => some ([], [])
  | e :: rest => do
    let (type, marks) ← inferred? v e
    let (types, more) ← inferredAll? v rest
    return (type :: types, marks ++ more)

end

/-- Whether the second view shows of some names what the first one shows of them. -/
structure View.Agrees (v v' : View) (names : List (Nat × String)) : Prop where
  catalog : v'.catalog = v.catalog
  entity? : ∀ p ∈ names, ∀ entity, v.entity? p.2 = some entity → v'.entity? p.2 = some entity
  isList : ∀ p ∈ names, v.isList p.2 = true → v'.isList p.2 = true
  value? : ∀ p ∈ names, v'.value? p.2 = v.value? p.2

private theorem Expr.exists_mem_names_of_name? {name : String} : ∀ {e : Expr}, e.name? = some name →
    ∃ id, (id, name) ∈ e.names
  | .ident tag _, h => by
    cases h
    exact ⟨tag.id, mem_singleton.mpr rfl⟩
  | .group _ inner, h => exists_mem_names_of_name? (e := inner) h
  | .literal .., h | .call .., h | .cast .., h | .list .., h | .not .., h
  | .binary .., h => by cases h

private theorem Expr.names_subset_namesAll {e : Expr} (he : e ∈ es) : e.names ⊆ namesAll es := by
  induction es with
  | nil => cases he
  | cons first rest ih =>
    rcases mem_cons.mp he with rfl | he
    · exact subset_append_left _ _
    · exact subset_append_of_subset_right _ (ih he)

namespace View

variable {v v' : View} {names names' : List (Nat × String)}

private theorem Agrees.mono (h : v.Agrees v' names) (hsub : names' ⊆ names) :
    v.Agrees v' names' where
  catalog := h.catalog
  entity? p hp := h.entity? p (hsub hp)
  isList p hp := h.isList p (hsub hp)
  value? p hp := h.value? p (hsub hp)

private theorem Agrees.staticValue?_eq (h : v.Agrees v' arg.names) :
    v'.staticValue? arg = v.staticValue? arg := by
  have hident (name : String) (hname : arg.name? = some name) : v'.value? name = v.value? name := by
    obtain ⟨id, hid⟩ := Expr.exists_mem_names_of_name? hname
    exact h.value? _ hid
  unfold Expr.name? at hident
  unfold staticValue?
  split
  · rfl
  · rename_i heq
    rw [heq] at hident
    exact hident _ rfl
  · rfl

private theorem Agrees.takes (h : v.Agrees v' arg.names) (htakes : v.takes spec arg) :
    v'.takes spec arg := by
  unfold View.takes fits at htakes ⊢
  rw [h.staticValue?_eq]
  rw [Bool.and_eq_true] at htakes ⊢
  refine ⟨?_, htakes.2⟩
  cases hslot : spec.slot with
  | list field =>
    have hlist := htakes.1
    rw [hslot] at hlist
    change arg.name?.any v.isList = true at hlist
    change arg.name?.any v'.isList = true
    cases hname : arg.name? with
    | none =>
      rw [hname] at hlist
      cases hlist
    | some name =>
      rw [hname] at hlist
      obtain ⟨id, hid⟩ := Expr.exists_mem_names_of_name? hname
      exact h.isList _ hid hlist
  | _ => rfl

private theorem Agrees.takesAll {params : List ParamSpec} {args : List Expr}
    (h : v.Agrees v' (Expr.namesAll args)) (htakes : v.takesAll params args) :
    v'.takesAll params args := by
  unfold View.takesAll at htakes ⊢
  rw [all_eq_true] at htakes ⊢
  intro p hp
  exact (h.mono (Expr.names_subset_namesAll (of_mem_zip hp).2)).takes (htakes p hp)

private theorem Agrees.callType? {args : List Expr} {types : List DataType} {type : DataType}
    (h : v.Agrees v' (Expr.namesAll args)) (hcall : v.callType? callee args types = some type) :
    v'.callType? callee args types = some type := by
  unfold View.callType? at hcall ⊢
  rw [h.catalog]
  obtain ⟨b, hb, hcall⟩ := bind_eq_some_iff.mp hcall
  obtain ⟨signature, hsig, hcall⟩ := bind_eq_some_iff.mp hcall
  refine bind_eq_some_iff.mpr ⟨b, hb, bind_eq_some_iff.mpr ⟨signature, hsig, ?_⟩⟩
  split at hcall
  · rename_i htakes
    rwa [if_pos (h.takesAll htakes)]
  · cases hcall

end View

namespace Expr

variable {v v' : View}

mutual

/-- What is inferred of an expression depends on what the view shows of its names. -/
theorem inferred?_of_agrees : ∀ {e : Expr} {found : DataType × List Mark}, v.Agrees v' e.names →
    e.inferred? v = some found → e.inferred? v' = some found
  | .literal .., _, _, h => by
    rw [inferred?] at h ⊢
    exact h
  | .ident tag name, _, hagrees, h => by
    rw [inferred?] at h ⊢
    obtain ⟨entity, hent, h⟩ := bind_eq_some_iff.mp h
    exact bind_eq_some_iff.mpr ⟨entity, hagrees.entity? _ mem_cons_self _ hent, h⟩
  | .call tag callee args, _, hagrees, h => by
    rw [inferred?] at h ⊢
    obtain ⟨p, hp, h⟩ := bind_eq_some_iff.mp h
    obtain ⟨type, htype, h⟩ := bind_eq_some_iff.mp h
    exact bind_eq_some_iff.mpr ⟨p, inferredAll?_of_agrees hagrees hp,
      bind_eq_some_iff.mpr ⟨type, hagrees.callType? htype, h⟩⟩
  | .cast _ _ operand, _, hagrees, h | .not _ operand, _, hagrees, h
  | .group _ operand, _, hagrees, h => by
    rw [inferred?] at h ⊢
    obtain ⟨p, hp, h⟩ := bind_eq_some_iff.mp h
    exact bind_eq_some_iff.mpr ⟨p, inferred?_of_agrees (e := operand) hagrees hp, h⟩
  | .list .., _, _, h => by
    rw [inferred?] at h
    cases h
  | .binary _ _ left right, _, hagrees, h => by
    rw [inferred?] at h ⊢
    obtain ⟨p, hp, h⟩ := bind_eq_some_iff.mp h
    obtain ⟨q, hq, h⟩ := bind_eq_some_iff.mp h
    exact bind_eq_some_iff.mpr ⟨p, inferred?_of_agrees (hagrees.mono (subset_append_left _ _)) hp,
        bind_eq_some_iff.mpr
        ⟨q, inferred?_of_agrees (hagrees.mono (subset_append_right _ _)) hq, h⟩⟩

private theorem inferredAll?_of_agrees : ∀ {es : List Expr} {found : List DataType × List Mark},
    v.Agrees v' (namesAll es) → inferredAll? v es = some found → inferredAll? v' es = some found
  | [], _, _, h => by
    rw [inferredAll?] at h ⊢
    exact h
  | e :: rest, _, hagrees, h => by
    rw [inferredAll?] at h ⊢
    obtain ⟨p, hp, h⟩ := bind_eq_some_iff.mp h
    obtain ⟨q, hq, h⟩ := bind_eq_some_iff.mp h
    exact bind_eq_some_iff.mpr ⟨p, inferred?_of_agrees (hagrees.mono (subset_append_left _ _)) hp,
        bind_eq_some_iff.mpr
        ⟨q, inferredAll?_of_agrees (hagrees.mono (subset_append_right _ _)) hq, h⟩⟩

end

end Expr

/-- Whether a mark is that of the use of what is declared as a kind under a name. -/
def Mark.isUse (kind : DeclarationKind) (name : String) : Mark → Bool
  | .use kind' name' => decide (kind' = kind ∧ name' = name)
  | .record .. => false

/-- Whether names have a meaning in a view, and some marks are just the marks of their use. -/
structure View.Resolves (v : View) (names : List (Nat × String)) (marks : List Mark) : Prop where
  known : ∀ p ∈ names, v.entity? p.2 ≠ none
  uses : ∀ kind name, marks.any (Mark.isUse kind name) =
    (decide ((v.entity? name).bind Entity.kind? = some kind) && names.any (·.2 = name))

namespace View.Resolves

variable {v : View} {names more : List (Nat × String)} {marks moreMarks : List Mark}

/-- No names leave no marks. -/
theorem nil : v.Resolves [] [] := ⟨nofun, by simp⟩

private theorem append (h : v.Resolves names marks) (h' : v.Resolves more moreMarks) :
    v.Resolves (names ++ more) (marks ++ moreMarks) where
  known := forall_mem_append.mpr ⟨h.known, h'.known⟩
  uses kind name := by rw [any_append, any_append, h.uses, h'.uses, Bool.and_or_distrib_left]

/-- Records resolve nothing. -/
theorem record (h : v.Resolves names marks) (id : Nat) (type : DataType) :
    v.Resolves names (marks ++ [.record id type]) :=
  ⟨h.known, fun kind name => by simpa [Mark.isUse] using h.uses kind name⟩

private theorem ident {name : String} {entity : Entity} (h : v.entity? name = some entity)
    (id : Nat) : v.Resolves [(id, name)] (entity.marks name) where
  known := forall_mem_singleton.mpr (by simp [h])
  uses kind other := by
    by_cases hname : name = other
    · subst hname
      rw [h]
      cases entity <;> simp [Entity.marks, Entity.kind?, Mark.isUse]
    · cases entity <;> simp [Entity.marks, Entity.kind?, Mark.isUse, hname]

end View.Resolves

mutual

/-- An expression that has a type marks the use of its names. -/
theorem Expr.resolves {v : View} :
    ∀ {e : Expr} {found : DataType × List Mark}, e.inferred? v = some found →
      v.Resolves e.names found.2
  | .literal .., _, h => by
    rw [inferred?] at h
    cases h
    exact View.Resolves.nil.record _ _
  | .ident tag name, _, h => by
    rw [inferred?] at h
    obtain ⟨entity, hent, h⟩ := bind_eq_some_iff.mp h
    cases h
    exact (View.Resolves.ident hent tag.id).record _ _
  | .call .., _, h => by
    rw [inferred?] at h
    obtain ⟨p, hp, h⟩ := bind_eq_some_iff.mp h
    obtain ⟨type, _, h⟩ := bind_eq_some_iff.mp h
    cases h
    exact (resolvesAll hp).record _ _
  | .cast _ _ operand, _, h | .not _ operand, _, h => by
    rw [inferred?] at h
    obtain ⟨p, hp, h⟩ := bind_eq_some_iff.mp h
    dsimp only at h
    split at h <;> cases h
    exact (resolves (e := operand) hp).record _ _
  | .group _ inner, _, h => by
    rw [inferred?] at h
    obtain ⟨p, hp, h⟩ := bind_eq_some_iff.mp h
    cases h
    exact (resolves (e := inner) hp).record _ _
  | .list .., _, h => by
    rw [inferred?] at h
    cases h
  | .binary _ _ left right, _, h => by
    rw [inferred?] at h
    obtain ⟨p, hp, h⟩ := bind_eq_some_iff.mp h
    obtain ⟨q, hq, h⟩ := bind_eq_some_iff.mp h
    obtain ⟨type, _, h⟩ := bind_eq_some_iff.mp h
    cases h
    exact ((resolves (e := left) hp).append (resolves (e := right) hq)).record _ _

/-- Inferring resolves names. -/
theorem Expr.resolvesAll {v : View} : ∀ {es : List Expr} {found : List DataType × List Mark},
    inferredAll? v es = some found → v.Resolves (namesAll es) found.2
  | [], _, h => by
    rw [inferredAll?] at h
    cases h
    exact .nil
  | e :: rest, _, h => by
    rw [inferredAll?] at h
    obtain ⟨p, hp, h⟩ := bind_eq_some_iff.mp h
    obtain ⟨q, hq, h⟩ := bind_eq_some_iff.mp h
    cases h
    exact (resolves hp).append (resolvesAll hq)

end

namespace Analyzer

variable {scope : Scope} {nodes : Nat → Prop} {s s' s₀ : AnalysisState}
  {e : Expr} {type : DataType} {id : Nat}

private theorem leaves_recorded {tag : Tag} (htag : nodes tag.id) (type : DataType) :
    Leaves scope nodes (recorded tag type) fun _ => some (type, [.record tag.id type]) where
  reports := declaring_reports.recorded trivial type
  clean_iff {s type' s'} := by
    have hrun : recorded tag type s = .ok type (s.marked [.record tag.id type]) := rfl
    unfold Clean
    rw [hrun]
    refine ⟨?_, ?_⟩
    · rintro ⟨h, _⟩
      cases h
      exact ⟨_, rfl, rfl⟩
    · rintro ⟨marks, h, rfl⟩
      cases h
      exact ⟨rfl, rfl⟩
  of_mem h := by
    cases h
    exact forall_mem_singleton.mpr htag

private theorem leaves_nameType (name : String) (span : Span) :
    Leaves scope nodes (nameType scope name span) fun v => (v.entity? name).map fun entity =>
      (entity.type, entity.marks name) where
  reports := declaring_reports.nameType trivial scope name
  clean_iff {s type s'} := by
    have h := nameType_ends scope name span s
    unfold Ends at h
    unfold Clean
    rw [Scope.entity?_view]
    split at h
    · rename_i t s₁ hrun
      obtain ⟨entity, hent, rfl, rfl⟩ := h
      rw [hrun, hent]
      refine ⟨?_, ?_⟩
      · rintro ⟨heq, _⟩
        cases heq
        exact ⟨_, rfl, marked_marks name entity⟩
      · rintro ⟨marks, heq, rfl⟩
        cases heq
        rw [marked_marks]
        exact ⟨rfl, rfl⟩
    · rename_i hrun
      rw [hrun, h.1]
      exact ⟨fun hok => (nomatch hok.1), fun hsome => by simp at hsome⟩
  of_mem h := by
    obtain ⟨entity, hent, heq⟩ := Option.map_eq_some_iff.mp h
    cases heq
    exact Scope.of_mem_marks hent

private theorem optionFault?_eq_none_iff (scope : Scope) (callee : String) :
    optionFault? s.defs callee spec arg = none ↔ (scope.view s).fits spec arg := by
  have hstatic : s.defs.staticValue? arg = (scope.view s).staticValue? arg := rfl
  unfold optionFault? View.fits
  rw [hstatic]
  split
  · split <;> simp_all
  · simp

/-- A clean option fits. -/
theorem clean_checkOption_iff (scope : Scope) :
    Clean (checkOption callee spec arg) s a s' ↔ (scope.view s).fits spec arg ∧ s = s' := by
  unfold checkOption
  rw [clean_defs_bind_iff, ← optionFault?_eq_none_iff scope callee]
  cases optionFault? s.defs callee spec arg with
  | none => simp
  | some fault => simp

private theorem clean_checkArgument_iff (scope : Scope) :
    Clean (checkArgument callee spec arg) s a s' ↔ (scope.view s).takes spec arg ∧ s = s' := by
  unfold checkArgument View.takes
  cases spec.slot with
  | list field =>
    have hcontains : s.defs.lists.contains = (scope.view s).isList := by
      funext name
      simp [View.isList, Scope.view, Definitions.lookup, Table.contains]
    dsimp only
    rw [clean_defs_bind_iff, show (scope.view s).names (.list field) arg =
      arg.name?.any s.defs.lists.contains by rw [hcontains]; rfl]
    cases arg.name?.any s.defs.lists.contains with
    | false =>
      simpa using not_clean_reportFault_bind _ _ (declaring_reports.checkOption callee spec trivial)
    | true => exact clean_checkOption_iff scope
  | _ => exact clean_checkOption_iff scope

/-- Clean arguments fit. -/
theorem clean_checkArguments_iff (scope : Scope) {signature : Signature} {args : List Expr} :
    Clean (checkArguments callee signature args) s a s' ↔
      (scope.view s).takesAll signature.params args ∧ s = s' := by
  unfold checkArguments View.takesAll
  generalize signature.params.zip args = pairs
  induction pairs with
  | nil => simp [clean_pure_iff, List.forM]
  | cons first rest ih =>
    have hargument (p : ParamSpec × Expr) : Within Reports (checkArgument callee p.1 p.2) :=
      declaring_reports.checkArgument callee p.1 trivial
    change Clean (checkArgument callee first.1 first.2 >>= fun _ =>
      rest.forM fun p => checkArgument callee p.1 p.2) s a s' ↔ _
    rw [clean_bind_iff (hargument first) fun _ => declaring_reports.forM fun p _ => hargument p]
    simp only [clean_checkArgument_iff scope, all_cons, Bool.and_eq_true]
    refine ⟨?_, ?_⟩
    · rintro ⟨_, _, ⟨htakes, rfl⟩, hrest⟩
      obtain ⟨hall, rfl⟩ := ih.mp hrest
      exact ⟨⟨htakes, hall⟩, rfl⟩
    · rintro ⟨⟨htakes, hall⟩, rfl⟩
      exact ⟨(), s, ⟨htakes, rfl⟩, ih.mpr ⟨hall, rfl⟩⟩

private theorem leaves_callType (callee : String) (args : List Expr) (types : List DataType)
    (span : Span) :
    Leaves scope nodes (callType scope callee args types span)
      fun v => (v.callType? callee args types).map (·, []) := by
  refine .guard (declaring_reports.callType trivial scope callee (fun _ _ => trivial) types)
    fun {s type s'} => ?_
  unfold callType View.callType?
  dsimp only
  cases hget : scope.catalog.functions.get? callee with
  | none =>
    rw [show (scope.view s).catalog.functions.get? callee = none from hget, clean_defs_bind_iff]
    simp only [Option.bind_eq_bind, Option.bind_none, false_and, iff_false, reduceCtorEq]
    split
    · exact not_clean_fail _ _
    · split <;> exact not_clean_fail _ _
  | some b =>
    rw [show (scope.view s).catalog.functions.get? callee = some b from hget]
    dsimp only [Option.bind_eq_bind, Option.bind_some]
    cases hresolve : b.resolve types with
    | none =>
      simp only [resolve, hresolve]
      simp
    | some signature =>
      have hcheck : Within Reports (checkArguments callee signature args) :=
        declaring_reports.checkArguments callee signature fun _ _ => trivial
      simp only [resolve, hresolve, pure_bind, Option.bind_some]
      rw [clean_bind_iff hcheck fun _ => ?_]
      · simp only [clean_checkArguments_iff scope]
        cases signature.result with
        | none => simp
        | some result => cases (scope.view s).takesAll signature.params args <;> simp
      · split
        · exact .pure _
        · exact .fail _ _

private theorem leaves_castType (target source : DataType) (span : Span) :
    Leaves scope nodes (castType target source span) fun _ => if source.castable target then some
      (target, []) else none := by
  unfold castType
  split
  · exact .pure _
  · exact .fail _ _

private theorem leaves_notType (operand : DataType) (span : Span) :
    Leaves scope nodes (notType operand span) fun _ => if operand = .boolean then some
      (.boolean, []) else none := by
  unfold notType
  split
  · exact .pure _
  · exact .fail _ _

private theorem leaves_binaryType (op : BinaryOp) (left right : DataType) (span : Span) :
    Leaves scope nodes (binaryType op left right span) fun _ => (op.resultType? left right).map
    (·, []) := by
  unfold binaryType
  cases op.resultType? left right with
  | none => exact .fail _ _
  | some type => exact .pure _

mutual

/-- Where the analysis of an expression is clean, it leaves the marks of the expression. -/
theorem leaves_exprType (scope : Scope) : ∀ e : Expr, (∀ id ∈ e.ids, nodes id) →
    Leaves scope nodes (exprType scope e) e.inferred?
  | .literal tag value, h => by
    rw [exprType]
    exact (leaves_recorded (h _ mem_cons_self) _).congr fun v => by rw [Expr.inferred?]
  | .ident tag name, h => by
    rw [exprType]
    refine ((leaves_nameType name tag.span).bind (leaves_recorded (h _ mem_cons_self))).congr
      fun v => ?_
    rw [Expr.inferred?]
    cases v.entity? name <;> rfl
  | .call tag callee args, h => by
    rw [exprType]
    obtain ⟨htag, hargs⟩ := forall_mem_cons.mp h
    refine ((leaves_exprTypes scope args hargs).bind fun types =>
      (leaves_callType callee args types tag.span).bind (leaves_recorded htag)).congr fun v => ?_
    rw [Expr.inferred?]
    cases Expr.inferredAll? v args with
    | none => rfl
    | some p => cases h : v.callType? callee args p.1 <;> simp [h]
  | .cast tag target operand, h => by
    rw [exprType]
    obtain ⟨htag, hoperand⟩ := forall_mem_cons.mp h
    refine ((leaves_exprType scope operand hoperand).bind fun source =>
      (leaves_castType target source tag.span).bind (leaves_recorded htag)).congr fun v => ?_
    rw [Expr.inferred?]
    cases operand.inferred? v with
    | none => rfl
    | some p => cases h : p.1.castable target <;> simp [h]
  | .list tag items, _ => by
    rw [exprType]
    exact (Leaves.fail _ _).congr fun v => by rw [Expr.inferred?]
  | .not tag operand, h => by
    rw [exprType]
    obtain ⟨htag, hoperand⟩ := forall_mem_cons.mp h
    refine ((leaves_exprType scope operand hoperand).bind fun type =>
      (leaves_notType type tag.span).bind (leaves_recorded htag)).congr fun v => ?_
    rw [Expr.inferred?]
    cases operand.inferred? v with
    | none => rfl
    | some p => by_cases h : p.1 = .boolean <;> simp [h]
  | .binary tag op left right, h => by
    rw [exprType]
    obtain ⟨htag, hoperands⟩ := forall_mem_cons.mp h
    obtain ⟨hleft, hright⟩ := forall_mem_append.mp hoperands
    refine ((leaves_exprType scope left hleft).bind fun leftType =>
      (leaves_exprType scope right hright).bind fun rightType =>
        (leaves_binaryType op leftType rightType tag.span).bind (leaves_recorded htag)).congr
          fun v => ?_
    rw [Expr.inferred?]
    cases left.inferred? v with
    | none => rfl
    | some p =>
      cases right.inferred? v with
      | none => rfl
      | some q => cases h : op.resultType? p.1 q.1 <;> simp [h]
  | .group tag inner, h => by
    rw [exprType]
    obtain ⟨htag, hinner⟩ := forall_mem_cons.mp h
    refine ((leaves_exprType scope inner hinner).bind (leaves_recorded htag)).congr fun v => ?_
    rw [Expr.inferred?]
    cases inner.inferred? v <;> rfl

/-- Types leave marks. -/
theorem leaves_exprTypes (scope : Scope) : ∀ es : List Expr, (∀ id ∈ Expr.idsAll es, nodes id) →
    Leaves scope nodes (exprTypes scope es) fun v => Expr.inferredAll? v es
  | [], _ => by
    rw [exprTypes]
    exact (Leaves.pure _).congr fun v => by rw [Expr.inferredAll?]
  | e :: rest, h => by
    rw [exprTypes]
    obtain ⟨he, hrest⟩ := forall_mem_append.mp h
    refine ((leaves_exprType scope e he).bind fun type => (leaves_exprTypes scope rest hrest).bind
      fun types => .pure (type :: types)).congr fun v => ?_
    rw [Expr.inferredAll?]
    cases e.inferred? v with
    | none => rfl
    | some p => cases Expr.inferredAll? v rest <;> simp

end

/-- List arguments name lists. -/
theorem namesLists_of_takesAll {params : List ParamSpec} {args : List Expr}
    (h : (scope.view s).takesAll params args) : (scope.typing s s').NamesLists params args := by
  intro p hp field hslot
  have hnames := ((Bool.and_eq_true _ _).mp (all_eq_true.mp h p hp)).1
  rw [hslot] at hnames
  obtain ⟨name, hname, hlist⟩ := (Option.any_eq_true _ _).mp hnames
  exact ⟨name, hname, Option.isSome_iff_ne_none.mp hlist⟩

private theorem callType_ends (args : List Expr) (types : List DataType) (span : Span) :
    Ends (callType scope callee args types span) s
      (fun type s' => ∃ b signature, scope.catalog.functions.get? callee = some b ∧
        b.resolve types = some signature ∧ signature.result = some type ∧
        (s'.errors = s.errors → (scope.typing s s').NamesLists signature.params args))
      fun _ _ => True := by
  unfold callType
  cases hfun : scope.catalog.functions.get? callee with
  | some b =>
    dsimp only
    rw [ends_bind]
    unfold resolve
    split
    · rename_i signature hresolve
      rw [ends_pure, ends_bind]
      refine (ends_clean (checkArguments callee signature args) s).mono ?_ fun _ _ _ => trivial
      intro _ s' hclean
      split
      · rename_i type hres
        refine ⟨b, signature, rfl, hresolve, hres, fun herrs => ?_⟩
        exact namesLists_of_takesAll ((clean_checkArguments_iff scope).mp (hclean herrs)).1
      · trivial
    · trivial
  | none =>
    dsimp only
    rw [ends_bind, ends_defs]
    split
    · trivial
    · split <;> trivial

private theorem recorded_ends {tag : Tag}
    (h : e.Typed (scope.typing s₀ { s with types := s.types.insert tag.id type }) type) :
    Ends (recorded tag type) s (fun type s' => e.Typed (scope.typing s₀ s') type) fun _ _ => True :=
  h

private theorem get?_insert_of_ne {types : TypeTable} {other : Nat} (h : id ≠ other) :
    (types.insert id type).get? other = types.get? other := by
  rw [Table.get?_insert, if_neg h]

private theorem get?_insert_self {types : TypeTable} :
    (types.insert id type).get? id = some type := by
  rw [Table.get?_insert, if_pos rfl]

private theorem typed_insert {found : DataType} (h : e.Typed (scope.typing s₀ s) found)
    (hid : id ∉ e.ids) :
    e.Typed (scope.typing s₀ { s with types := s.types.insert id type }) found :=
  h.refine <| scope.typing_refines rfl rfl (fun h => h) fun _ hmem => get?_insert_of_ne fun heq =>
    hid (heq ▸ hmem)

mutual

/-- Where typing an expression returns, the expression is typed. -/
theorem exprType_ends (scope : Scope) : ∀ (e : Expr) (s : AnalysisState), e.ids.Nodup →
    Ends (exprType scope e) s (fun type s' => e.Typed (scope.typing s s') type) fun _ _ => True
  | .literal tag value, s, _ => by
    rw [exprType]
    exact recorded_ends (.literal get?_insert_self)
  | .ident tag name, s, _ => by
    rw [exprType, ends_bind]
    refine (nameType_ends scope name tag.span s).mono ?_ fun _ _ _ => trivial
    rintro _ _ ⟨entity, hent, rfl, rfl⟩
    exact recorded_ends (.ident hent get?_insert_self)
  | .call tag callee args, s, hnodup => by
    obtain ⟨htag, hargs⟩ := nodup_cons.mp hnodup
    have hwithin : WithinAt (Touches (· ∈ Expr.idsAll args)) (exprTypes scope args) s :=
      within_exprTypes scope args (fun _ h => h) s
    rw [exprType, ends_bind]
    refine ((exprTypes_ends scope args s hargs).and hwithin).mono ?_ fun _ _ _ => trivial
    rintro types s₁ ⟨htypes, htouch⟩
    have hwithin' :
        WithinAt (Touches fun _ => False) (callType scope callee args types tag.span) s₁ :=
      within_callType scope callee args types tag.span s₁
    rw [ends_bind]
    refine Ends.mono ((callType_ends args types tag.span).and hwithin') ?_ fun _ _ _ => trivial
    rintro type s₂ ⟨⟨b, signature, hcallee, hresolve, hres, hlists⟩, htouch'⟩
    have hsplit := htouch.errors.split htouch'.errors
    refine recorded_ends (.call (htypes.refine ?_) hcallee hresolve (fun herrs => ?_) hres
      get?_insert_self)
    · refine scope.typing_refines rfl rfl (fun herrs => (hsplit herrs).1) fun id hid => ?_
      change (s₂.types.insert tag.id type).get? id = s₁.types.get? id
      rw [get?_insert_of_ne (by rintro rfl; exact htag hid), htouch'.types id nofun]
    · have href : (scope.typing s₁ s₂).Refines (scope.typing s s₂) [] [] :=
        scope.typing_refines htouch.lookup htouch.pending (fun h => (hsplit h).2) nofun
      exact (hlists (hsplit herrs).2).refine href.lists
  | .cast tag target operand, s, hnodup => by
    obtain ⟨htag, hoperand⟩ := nodup_cons.mp hnodup
    rw [exprType, ends_bind]
    refine (exprType_ends scope operand s hoperand).mono ?_ fun _ _ _ => trivial
    intro source s₁ hsrc
    rw [ends_bind]
    unfold castType
    split
    · rename_i hcast
      exact recorded_ends (.cast (typed_insert hsrc htag) hcast get?_insert_self)
    · trivial
  | .list tag _, s, _ => by
    rw [exprType]
    trivial
  | .not tag operand, s, hnodup => by
    obtain ⟨htag, hoperand⟩ := nodup_cons.mp hnodup
    rw [exprType, ends_bind]
    refine (exprType_ends scope operand s hoperand).mono ?_ fun _ _ _ => trivial
    intro type s₁ htype
    rw [ends_bind]
    unfold notType
    split
    · rename_i hboolean
      subst hboolean
      exact recorded_ends (.not (typed_insert htype htag) get?_insert_self)
    · trivial
  | .binary tag op left right, s, hnodup => by
    obtain ⟨htag, hboth⟩ := nodup_cons.mp hnodup
    obtain ⟨hleft, hright, hdisj⟩ := nodup_append.mp hboth
    rw [mem_append, not_or] at htag
    have hwithin : WithinAt (Touches (· ∈ left.ids)) (exprType scope left) s :=
      within_exprType scope left (fun _ h => h) s
    rw [exprType, ends_bind]
    refine ((exprType_ends scope left s hleft).and hwithin).mono ?_ fun _ _ _ => trivial
    rintro leftType s₁ ⟨hleftType, htouch⟩
    have hwithin' : WithinAt (Touches (· ∈ right.ids)) (exprType scope right) s₁ :=
      within_exprType scope right (fun _ h => h) s₁
    rw [ends_bind]
    refine Ends.mono ((exprType_ends scope right s₁ hright).and hwithin') ?_ fun _ _ _ => trivial
    rintro rightType s₂ ⟨hrightType, htouch'⟩
    have hsplit := htouch.errors.split htouch'.errors
    rw [ends_bind]
    unfold binaryType
    split
    · rename_i type hop
      have hleft' := hleftType.refine <| scope.typing_refines rfl rfl
        (fun herrs => (hsplit herrs).1) fun id hid => htouch'.types id fun h =>
        hdisj id hid id h rfl
      have hright' := hrightType.refine <|
        scope.typing_refines htouch.lookup htouch.pending (fun herrs => (hsplit herrs).2)
        fun _ _ => rfl
      exact recorded_ends (.binary (typed_insert hleft' htag.1) (typed_insert hright' htag.2) hop
        get?_insert_self)
    · trivial
  | .group tag inner, s, hnodup => by
    obtain ⟨htag, hinner⟩ := nodup_cons.mp hnodup
    rw [exprType, ends_bind]
    refine (exprType_ends scope inner s hinner).mono ?_ fun _ _ _ => trivial
    intro type s₁ htype
    exact recorded_ends (.group (typed_insert htype htag) get?_insert_self)

private theorem exprTypes_ends (scope : Scope) :
    ∀ (es : List Expr) (s : AnalysisState), (Expr.idsAll es).Nodup → Ends (exprTypes scope es) s
      (fun types s' => Expr.TypedAll (scope.typing s s') es types) fun _ _ => True
  | [], s, _ => by
    rw [exprTypes]
    exact .nil
  | e :: rest, s, hnodup => by
    obtain ⟨hfirst, hrest, hdisj⟩ := nodup_append.mp hnodup
    have hwithin : WithinAt (Touches (· ∈ e.ids)) (exprType scope e) s :=
      within_exprType scope e (fun _ h => h) s
    rw [exprTypes, ends_bind]
    refine ((exprType_ends scope e s hfirst).and hwithin).mono ?_ fun _ _ _ => trivial
    rintro type s₁ ⟨htype, htouch⟩
    have hwithin' : WithinAt (Touches (· ∈ Expr.idsAll rest)) (exprTypes scope rest) s₁ :=
      within_exprTypes scope rest (fun _ h => h) s₁
    rw [ends_bind]
    refine Ends.mono ((exprTypes_ends scope rest s₁ hrest).and hwithin') ?_ fun _ _ _ => trivial
    rintro types s₂ ⟨htypes, htouch'⟩
    have hsplit := htouch.errors.split htouch'.errors
    refine .cons (htype.refine ?_) (htypes.refine ?_)
    · exact scope.typing_refines rfl rfl (fun herrs => (hsplit herrs).1)
        fun id hid => htouch'.types id fun hmem => hdisj id hid id hmem rfl
    · exact scope.typing_refines htouch.lookup htouch.pending (fun herrs => (hsplit herrs).2)
        fun _ _ => rfl

end

/-- An expression whose type is inferred is typed after its marks. -/
theorem typed_of_inferred? {marks : List Mark} (hnodup : e.ids.Nodup)
    (h : e.inferred? (scope.view s) = some (type, marks)) :
    e.Typed (scope.typing s (s.marked marks)) type :=
  have hclean := (leaves_exprType scope e fun _ h => h).clean_iff.mpr ⟨marks, h, rfl⟩
  (exprType_ends scope e s hnodup).of_ok hclean.1

/-- What is inferred is typed. -/
theorem typedAll_of_inferredAll? {types : List DataType} {marks : List Mark}
    (hnodup : (Expr.idsAll es).Nodup)
    (h : Expr.inferredAll? (scope.view s) es = some (types, marks)) :
    Expr.TypedAll (scope.typing s (s.marked marks)) es types :=
  have hclean := (leaves_exprTypes scope es fun _ h => h).clean_iff.mpr ⟨marks, h, rfl⟩
  (exprTypes_ends scope es s hnodup).of_ok hclean.1

end Analyzer

end BlockScript
