import BlockScript.Proofs.Growth

/-!
# Typed expressions

The typing rules of expressions, with what names denote as a parameter. A typed expression has the
types of all its nodes recorded in a table. The rules speak of the nodes and names of the expression
only.
-/

namespace BlockScript

open List

variable {e : Expr} {type : DataType} {types : TypeTable}

mutual

/-- The nodes of an expression that are names. -/
def Expr.names : Expr → List (Nat × String)
  | .ident tag name => [(tag.id, name)]
  | .literal _ _ => []
  | .call _ _ args => namesAll args
  | .cast _ _ operand => operand.names
  | .list _ items => namesAll items
  | .not _ operand => operand.names
  | .binary _ _ left right => left.names ++ right.names
  | .group _ inner => inner.names

/-- The nodes of several expressions that are names. -/
def Expr.namesAll : List Expr → List (Nat × String)
  | [] => []
  | e :: rest => e.names ++ namesAll rest

end

/-- What the typing rules look up. -/
structure TypingContext where
  /-- The catalog. -/
  catalog : Catalog
  /-- The types of expressions. -/
  types : TypeTable
  /-- What a name denotes at a node. -/
  denotes : Nat → String → Entity → Prop
  /-- The names of lists. -/
  lists : String → Prop
  /-- Whether the arguments of calls were checked and nothing was reported. -/
  checked : Prop

/-- Whether every argument for a parameter that is a list names one. -/
def TypingContext.NamesLists (c : TypingContext) (params : List ParamSpec) (args : List Expr) :
    Prop :=
  ∀ p ∈ params.zip args, ∀ field, p.1.slot = .list field → ∃ name, p.2.name? = some name ∧
    c.lists name

/-- Whether what the second context says of some nodes includes what the first one says of them. -/
structure TypingContext.Refines (c c' : TypingContext) (ids : List Nat)
    (names : List (Nat × String)) : Prop where
  catalog : c'.catalog = c.catalog
  types : ∀ id ∈ ids, c'.types.get? id = c.types.get? id
  denotes : ∀ p ∈ names, ∀ entity, c.denotes p.1 p.2 entity → c'.denotes p.1 p.2 entity
  lists : ∀ name, c.lists name → c'.lists name
  checked : c'.checked → c.checked

mutual

/-- The typing rules of expressions. -/
inductive Expr.Typed (c : TypingContext) : Expr → DataType → Prop where
  | literal {tag : Tag} {value : Value} (htype : c.types.get? tag.id = some value.dataType) :
      Typed c (.literal tag value) value.dataType
  | ident {tag : Tag} {name : String} {entity : Entity} (hname : c.denotes tag.id name entity)
      (htype : c.types.get? tag.id = some entity.type) : Typed c (.ident tag name) entity.type
  | call {tag : Tag} {callee : String} {args : List Expr} {types : List DataType} {b : Builtin}
      {signature : Signature} {type : DataType} (hargs : TypedAll c args types)
      (hcallee : c.catalog.functions.get? callee = some b)
      (hresolve : b.resolve types = some signature)
      (hlists : c.checked → c.NamesLists signature.params args)
      (hres : signature.result = some type)
      (htype : c.types.get? tag.id = some type) : Typed c (.call tag callee args) type
  | cast {tag : Tag} {target source : DataType} {operand : Expr} (hoperand : Typed c operand source)
      (hcast : source.castable target = true) (htype : c.types.get? tag.id = some target) :
      Typed c (.cast tag target operand) target
  | not {tag : Tag} {operand : Expr} (hoperand : Typed c operand .boolean)
      (htype : c.types.get? tag.id = some .boolean) : Typed c (.not tag operand) .boolean
  | binary {tag : Tag} {op : BinaryOp} {left right : Expr} {leftType rightType type : DataType}
      (hleft : Typed c left leftType) (hright : Typed c right rightType)
      (hop : op.resultType? leftType rightType = some type)
      (htype : c.types.get? tag.id = some type) : Typed c (.binary tag op left right) type
  | group {tag : Tag} {inner : Expr} {type : DataType} (hinner : Typed c inner type)
      (htype : c.types.get? tag.id = some type) : Typed c (.group tag inner) type

/-- The typing rules of several expressions. -/
inductive Expr.TypedAll (c : TypingContext) : List Expr → List DataType → Prop where
  | nil : TypedAll c [] []
  | cons {e : Expr} {rest : List Expr} {type : DataType} {types : List DataType}
      (hfirst : Typed c e type) (hrest : TypedAll c rest types) :
      TypedAll c (e :: rest) (type :: types)

end

namespace Expr

variable {c c' : TypingContext}

/-- Its type is recorded. -/
theorem Typed.recorded (h : e.Typed c type) : c.types.get? e.id = some type := by
  cases h <;> assumption

/-- Their types are recorded. -/
theorem TypedAll.recorded {es : List Expr} {types : List DataType} (h : TypedAll c es types) :
    es.mapM (fun e => c.types.get? e.id) = some types := by
  induction es generalizing types with
  | nil =>
    cases h
    rfl
  | cons e rest ih =>
    cases h with
    | cons hfirst hrest => simp [mapM_cons, hfirst.recorded, ih hrest]

end Expr

namespace TypingContext

variable {c c' : TypingContext}

/-- Fewer nodes may be refined. -/
theorem Refines.mono {ids ids' : List Nat} {names names' : List (Nat × String)}
    (h : c.Refines c' ids names) (hids : ids' ⊆ ids) (hnames : names' ⊆ names) :
    c.Refines c' ids' names' where
  catalog := h.catalog
  types id hid := h.types id (hids hid)
  denotes p hp := h.denotes p (hnames hp)
  lists := h.lists
  checked := h.checked

/-- More lists may be known. -/
theorem NamesLists.refine {params : List ParamSpec} {args : List Expr}
    (h : c.NamesLists params args) (hlists : ∀ name, c.lists name → c'.lists name) :
    c'.NamesLists params args := by
  intro p hp field hslot
  obtain ⟨name, hname, hlist⟩ := h p hp field hslot
  exact ⟨name, hname, hlists name hlist⟩

end TypingContext

namespace Expr

variable {c c' : TypingContext}

mutual

/-- A typed expression is typed in every context that says the same of its nodes. -/
theorem Typed.refine :
    ∀ {e : Expr} {type : DataType}, e.Typed c type → c.Refines c' e.ids e.names → e.Typed c' type
  | .literal _ _, _, .literal htype, h => .literal ((h.types _ mem_cons_self).trans htype)
  | .ident _ _, _, .ident hname htype, h =>
    .ident (h.denotes _ mem_cons_self _ hname) ((h.types _ mem_cons_self).trans htype)
  | .call _ _ args, _, .call hargs hcallee hresolve hlists hres htype, h => by
    have hinner : c.Refines c' (idsAll args) (namesAll args) :=
      h.mono (subset_cons_self _ _) (List.Subset.refl _)
    rw [← h.catalog] at hcallee
    exact .call (hargs.refine hinner) hcallee hresolve
      (fun hchecked => (hlists (h.checked hchecked)).refine h.lists) hres
      ((h.types _ mem_cons_self).trans htype)
  | .cast _ _ _, _, .cast hoperand hcast htype, h =>
    .cast (hoperand.refine (h.mono (subset_cons_self _ _) (List.Subset.refl _))) hcast
      ((h.types _ mem_cons_self).trans htype)
  | .not _ _, _, .not hoperand htype, h =>
    .not (hoperand.refine (h.mono (subset_cons_self _ _) (List.Subset.refl _)))
      ((h.types _ mem_cons_self).trans htype)
  | .binary _ _ left right, _, .binary hleft hright hop htype, h => by
    have hinner : c.Refines c' (left.ids ++ right.ids) (left.names ++ right.names) :=
      h.mono (subset_cons_self _ _) (List.Subset.refl _)
    exact .binary (hleft.refine (hinner.mono (subset_append_left _ _) (subset_append_left _ _)))
      (hright.refine (hinner.mono (subset_append_right _ _) (subset_append_right _ _))) hop
      ((h.types _ mem_cons_self).trans htype)
  | .group _ _, _, .group hinner htype, h =>
    .group (hinner.refine (h.mono (subset_cons_self _ _) (List.Subset.refl _)))
      ((h.types _ mem_cons_self).trans htype)

/-- Typed expressions stay typed. -/
theorem TypedAll.refine : ∀ {es : List Expr} {types : List DataType}, TypedAll c es types →
    c.Refines c' (idsAll es) (namesAll es) → TypedAll c' es types
  | [], _, .nil, _ => .nil
  | _ :: _, _, .cons hfirst hrest, h =>
    .cons (hfirst.refine (h.mono (subset_append_left _ _) (subset_append_left _ _)))
      (hrest.refine (h.mono (subset_append_right _ _) (subset_append_right _ _)))

end

end Expr

/-- The typing context of a run of the analysis: names denote what they denoted before it, and the
types are those after it. -/
def Scope.typing (scope : Scope) (s s' : AnalysisState) : TypingContext where
  catalog := scope.catalog
  types := s'.types
  denotes _ name entity := scope.entity? s name = some entity
  lists name := s.defs.lookup .list name ≠ none
  checked := s'.errors = s.errors

open AnalysisState

/-- What is typed in a part of a run is typed in the whole run, if nothing else records its
nodes. -/
theorem Scope.typing_refines {s s₁ s₂ s₃ : AnalysisState} {ids : List Nat}
    {names : List (Nat × String)} (scope : Scope) (hlook : s₁.defs.lookup = s.defs.lookup)
    (hpend : s₁.pending = s.pending) (herrs : s₃.errors = s.errors → s₂.errors = s₁.errors)
    (htypes : ∀ id ∈ ids, s₃.types.get? id = s₂.types.get? id) :
    (scope.typing s₁ s₂).Refines (scope.typing s s₃) ids names where
  catalog := rfl
  types := htypes
  denotes p _ entity h := by
    have hent : scope.entity? s₁ p.2 = some entity := h
    rwa [Scope.entity?_congr hlook hpend] at hent
  lists name h := by
    have hlist : s₁.defs.lookup .list name ≠ none := h
    rwa [hlook] at hlist
  checked := herrs

end BlockScript
