import BlockScript.Proofs.CleanStatements
import BlockScript.Proofs.Resolution

/-!
# Accepted programs

What the analysis says of a program in which it finds no error: all expressions are typed, and
whatever is called, assigned or handled is there. The statements of the analyzed program are
accepted with respect to the finished analysis, which knows all declarations. A statement is
analyzed while some of them are still to come, so acceptance is proved against every finished
analysis that goes on from there. The statements that control never reaches are those with a
warning.
-/

namespace BlockScript

variable {stmts : List Stmt} {name : String} {c : TypingContext} {known : List String}
  {ids : List Nat} {uses : List Resolution} {value : Expr}

open AnalysisState List
open Option (bind_eq_some_iff)

/-- The typing rule of the header of a loop. -/
def LoopKind.Typed (c : TypingContext) : LoopKind → Prop
  | .forever => True
  | .times count => count.Typed c .number
  | .until condition => condition.Typed c .boolean

namespace TypingContext

/-- Whether a name can be called in statement position: it is a function with parameters of these
types, an event, or a statement of the catalog with a signature for these arguments. -/
def CanCall (c : TypingContext) (d : Definitions) (name : String) (args : List Expr)
    (types : List DataType) : Prop :=
  (∃ f, d.lookup .function name = some (.function f) ∧ f.paramTypes = types) ∨
    d.lookup .event name ≠ none ∨
    ∃ b signature, c.catalog.statements.get? name = some b ∧ b.resolve types = some signature ∧
      c.NamesLists signature.params args

/-- Whether a name can be assigned: it is a variable, or a property that takes the assignment. -/
def CanAssign (c : TypingContext) (d : Definitions) (target : String) (op : AssignOp) : Prop :=
  d.lookup .variable target ≠ none ∨
    ∃ property, c.catalog.properties.get? target = some property ∧
      Analyzer.supportsAssign c.catalog property target op = true

/-- Whether a list may have an initializer: there is none, or it is a list literal with typed
items. -/
def CanInitialize (c : TypingContext) (value : Option Expr) : Prop :=
  ∀ e, value = some e → ∃ items types, e.items? = some items ∧ Expr.TypedAll c items types

/-- The rule for the parameter of a handler: the event has a hat, and there is a parameter just if
the hat has one, of the type that it says. -/
def EventTyped (c : TypingContext) (name : String) (param : Option Expr) : Prop :=
  ∃ hat, c.catalog.hat? name = some hat ∧
    Option.Rel (fun spec arg => arg.Typed c spec.type) hat.params.head? param

/-- More may be typed. -/
theorem EventTyped.mono {c' : TypingContext} {param : Option Expr} (h : c.EventTyped name param)
    (hcat : c'.catalog = c.catalog)
    (htyped : ∀ arg ∈ param, ∀ type, arg.Typed c type → arg.Typed c' type) :
    c'.EventTyped name param := by
  obtain ⟨hat, hhat, hrel⟩ := h
  refine ⟨hat, hcat ▸ hhat, ?_⟩
  generalize hat.params.head? = first at hrel
  cases hrel with
  | none => exact .none
  | some harg => exact .some (htyped _ rfl _ harg)

/-- Parameters of events are typed. -/
theorem EventTyped.exists_typed {arg : Expr} (h : c.EventTyped name (some arg)) :
    ∃ hat spec, c.catalog.hat? name = some hat ∧ hat.params.head? = some spec ∧
    arg.Typed c spec.type := by
  obtain ⟨hat, hhat, hrel⟩ := h
  generalize hhead : hat.params.head? = first at hrel
  cases hrel with
  | some harg => exact ⟨hat, _, hhat, hhead, harg⟩

/-- Whether an event can be handled: it is declared and has no parameter, or it has a hat and a
parameter of the right type. -/
def CanHandle (c : TypingContext) (d : Definitions) (kind : EventKind) (name : String)
    (param : Option Expr) : Prop :=
  if kind = .custom then d.lookup .event name ≠ none ∧ param = none else c.EventTyped name param

end TypingContext

mutual

/-- Whether a statement is accepted in a function, or outside of all functions, at a point where
some constants are declared. -/
def Stmt.Accepted (w : Finished) (function : Option String) (known : List String) : Stmt → Prop
  | .varDecl _ _ value _ _ => (w.typing function known).CanInitialize value
  | .constDecl name _ value _ => ∃ c, w.defs.lookup .constant name = some (.constant c) ∧
      value.Typed (w.typing function known) c.type
  | .funcDecl name params body span endLine =>
    function = none ∧ (Stmt.funcDecl name params body span endLine).Announced w.defs ∧
      AcceptedAll w (some name) known body
  | .event kind name param body _ _ =>
    (w.typing function known).CanHandle w.defs kind name param ∧
      AcceptedAll w function known body
  | .call name args _ => ∃ types, Expr.TypedAll (w.typing function known) args types ∧
      (w.typing function known).CanCall w.defs name args types
  | .assign target op value _ => (∃ type, value.Typed (w.typing function known) type) ∧
      (w.typing function known).CanAssign w.defs target op
  | .branch condition thenBody elseBody _ => condition.Typed (w.typing function known) .boolean ∧
      AcceptedAll w function known thenBody ∧
      AcceptedAll w function (known ++ constantsAll thenBody) elseBody
  | .loop kind body _ => kind.Typed (w.typing function known) ∧ AcceptedAll w function known body

/-- Whether statements are accepted, where each may use the constants of those before it. -/
def Stmt.AcceptedAll (w : Finished) (function : Option String) (known : List String) :
    List Stmt → Prop
  | [] => True
  | stmt :: rest => stmt.Accepted w function known ∧
    AcceptedAll w function (known ++ stmt.constants) rest

end

/-- Accepted one by one. -/
theorem Stmt.acceptedAll_append {w : Finished} {function : Option String} {more : List Stmt} :
    AcceptedAll w function known (stmts ++ more) ↔ AcceptedAll w function known stmts ∧
      AcceptedAll w function (known ++ constantsAll stmts) more := by
  induction stmts generalizing known with
  | nil => simp [AcceptedAll, constantsAll]
  | cons stmt rest ih =>
    simp only [cons_append, AcceptedAll, constantsAll, ih, and_assoc, append_assoc]

/-- Whether a declaration is that of a list: it has a list literal, or the type of a list. -/
def Stmt.declaresList (type : Option DataType) (value : Option Expr) : Bool :=
  (value.bind Expr.items?).isSome || type.any DataType.isList

namespace Stmt

section Specification

variable (types : TypeTable) (first : Nat)

/-- Whether a variable starts with an expression and has a type. It starts with its initializer, and
has the declared type or else the one that is recorded for the initializer; or it starts with the
default of the declared type, as a literal with a new number. -/
def StartsWith (type : Option DataType) (value : Option Expr) (span : Span) (target : DataType)
    (init : Expr) : Prop :=
  match value with
  | some value => init = value ∧ ∃ found, types.get? value.id = some found ∧
    target = type.getD found
  | none => type = some target ∧ ∃ id default, first ≤ id ∧ target.default? = some default ∧
      init = .literal ⟨id, span⟩ default

mutual

/-- What stands for a statement of a body: a variable that holds one value is declared and then
assigned, and all else stays as it is. -/
def HoistsTo : Stmt → List Stmt → Prop
  | .varDecl name type value hoisted span, out =>
    if declaresList type value then out = [.varDecl name type value hoisted span]
    else ∃ target init, StartsWith types first type value span target init ∧
      out = [.varDecl name (some target) none true span, .assign name .set init span]
  | .branch condition thenBody elseBody span, out => ∃ thenOut elseOut, HoistsAll thenBody thenOut ∧
      HoistsAll elseBody elseOut ∧ out = [.branch condition thenOut elseOut span]
  | .loop kind body span, out => ∃ bodyOut, HoistsAll body bodyOut ∧ out = [.loop kind bodyOut span]
  | stmt, out => out = [stmt]

/-- What stands for the statements of a body. -/
def HoistsAll : List Stmt → List Stmt → Prop
  | [], out => out = []
  | stmt :: rest, out => ∃ head more, HoistsTo stmt head ∧ HoistsAll rest more ∧ out = head ++ more

end

/-- What stands for an item of a program, and what it adds to the initializers that are run
first. -/
def HoistsItem : Stmt → Stmt → List Stmt → Prop
  | .varDecl name type value hoisted span, out, assigns =>
    if declaresList type value then out = .varDecl name type value hoisted span ∧ assigns = []
    else ∃ target init, StartsWith types first type value span target init ∧
      out = .varDecl name (some target) none true span ∧ assigns = [.assign name .set init span]
  | .funcDecl name params body span endLine, out, assigns =>
      ∃ bodyOut, HoistsAll types first body bodyOut ∧
      out = .funcDecl name params bodyOut span endLine ∧ assigns = []
  | .event kind name param body span endLine, out, assigns => ∃ bodyOut,
      HoistsAll types first body bodyOut ∧ out = .event kind name param bodyOut span endLine ∧
      assigns = []
  | item, out, assigns => out = item ∧ assigns = []

/-- What stands for the items of a program, and the initializers that are run first. -/
def HoistsItems : List Stmt → List Stmt → List Stmt → Prop
  | [], outs, assigns => outs = [] ∧ assigns = []
  | item :: rest, outs, assigns => ∃ out more own others, HoistsItem types first item out own ∧
      HoistsItems rest more others ∧ outs = out :: more ∧ assigns = own ++ others

end Specification

end Stmt

namespace LowerContext

/-- Whether control never passes a statement: a loop without end, or a statement of the catalog that
ends its script. -/
def stops (c : LowerContext) : Stmt → Bool
  | .loop kind _ _ => kind.isForever
  | .call name args span =>
    if c.defs.functions.contains name || c.defs.events.contains name then false
    else match c.catalog.statements.get? name with
      | none => false
      | some b =>
        match c.signature b args span with
        | .error _ => false
        | .ok signature => signature.terminates
  | _ => false

mutual

/-- The statements in the bodies of a statement that control never reaches. -/
def unreached (c : LowerContext) : Stmt → List Stmt
  | .funcDecl _ _ body _ _ | .event _ _ _ body _ _ | .loop _ body _ => unreachedAll c false body
  | .branch _ thenBody elseBody _ => unreachedAll c false thenBody ++ unreachedAll c false elseBody
  | .varDecl .. | .constDecl .. | .call .. | .assign .. => []

/-- The statements of a body that come after one that control never passes, with those in the bodies
of its statements. `stopped` says whether there is one before the body. -/
def unreachedAll (c : LowerContext) (stopped : Bool) : List Stmt → List Stmt
  | [] => []
  | stmt :: rest =>
    (if stopped then [stmt] else []) ++
      (unreached c stmt ++ unreachedAll c (stopped || c.stops stmt) rest)

end

end LowerContext

/-- Warnings come in order. -/
theorem AnalysisOptions.unreachableWarnings_append (options : AnalysisOptions) (more : List Stmt) :
    options.unreachableWarnings (stmts ++ more) =
      options.unreachableWarnings stmts ++ options.unreachableWarnings more := by
  unfold unreachableWarnings
  split <;> simp

private theorem Finished.refines_known (w : Finished) (function : Option String)
    {known' : List String} (h : known ⊆ known') (ids : List Nat) (names : List (Nat × String)) :
    (w.typing function known).Refines (w.typing function known') ids names where
  catalog := rfl
  types _ _ := rfl
  denotes _ _ _ hdenotes := ⟨hdenotes.1, fun c hc => h (hdenotes.2 c hc)⟩
  lists _ h := h
  checked h := h

private theorem LoopKind.Typed.mono {c' : TypingContext} : ∀ {kind : LoopKind}, kind.Typed c →
    (∀ ids names, c.Refines c' ids names) → kind.Typed c'
  | .forever, _, _ => trivial
  | .times _, h, href => Expr.Typed.refine h (href _ _)
  | .until _, h, href => Expr.Typed.refine h (href _ _)

mutual

/-- What is accepted where some constants are declared is accepted where more are. -/
theorem Stmt.Accepted.mono {w : Finished} {function : Option String} {known known' : List String} :
    ∀ {stmt : Stmt}, stmt.Accepted w function known → known ⊆ known' →
    stmt.Accepted w function known'
  | .varDecl .., h, hsub => fun e he => by
    obtain ⟨items, types, hitems, htyped⟩ := h e he
    exact ⟨items, types, hitems, htyped.refine (w.refines_known function hsub _ _)⟩
  | .constDecl .., ⟨c, hc, htyped⟩, hsub =>
    ⟨c, hc, htyped.refine (w.refines_known function hsub _ _)⟩
  | .funcDecl .., ⟨hnone, hheld, hbody⟩, hsub => ⟨hnone, hheld, hbody.mono hsub⟩
  | .event kind _ _ _ _ _, ⟨hcan, hbody⟩, hsub => by
    refine ⟨?_, hbody.mono hsub⟩
    unfold TypingContext.CanHandle at hcan ⊢
    split at hcan
    · rename_i hkind
      rwa [if_pos hkind]
    · rename_i hkind
      rw [if_neg hkind]
      exact hcan.mono rfl fun _ _ _ htyped => htyped.refine (w.refines_known function hsub _ _)
  | .call .., ⟨types, htyped, hcan⟩, hsub =>
    ⟨types, htyped.refine (w.refines_known function hsub _ _), hcan⟩
  | .assign .., ⟨⟨type, htyped⟩, hcan⟩, hsub =>
    ⟨⟨type, htyped.refine (w.refines_known function hsub _ _)⟩, hcan⟩
  | .branch .., ⟨htyped, hthen, helse⟩, hsub =>
    ⟨htyped.refine (w.refines_known function hsub _ _), hthen.mono hsub,
        helse.mono (append_subset.mpr
        ⟨subset_append_of_subset_left _ hsub, subset_append_right _ _⟩)⟩
  | .loop .., ⟨htyped, hbody⟩, hsub =>
    ⟨htyped.mono (w.refines_known function hsub), hbody.mono hsub⟩

/-- More constants may be known. -/
theorem Stmt.AcceptedAll.mono {w : Finished} {function : Option String}
    {known known' : List String} :
    ∀ {stmts : List Stmt}, AcceptedAll w function known stmts → known ⊆ known' →
    AcceptedAll w function known' stmts
  | [], _, _ => trivial
  | _ :: _, ⟨hfirst, hrest⟩, hsub =>
    ⟨hfirst.mono hsub, hrest.mono (append_subset.mpr
      ⟨subset_append_of_subset_left _ hsub, subset_append_right _ _⟩)⟩

end

/-- Whether the nodes that are analyzed from a state on have numbers of their own, which were given
before, as were all those below `first`. -/
structure AnalysisState.Apart (first : Nat) (ids : List Nat) (s : AnalysisState) : Prop where
  nodup : ids.Nodup
  lt : ∀ id ∈ ids, id < s.nextId
  first : first ≤ s.nextId

/-- What the analysis of some nodes does between two states where it is clean: it declares some
constants, and `P` holds of every finished analysis that goes on from there and has made the same
resolutions. -/
structure Analyzes (catalog : Catalog) (first : Nat) (s s' : AnalysisState) (ids : List Nat)
    (constants : List String) (uses : List Resolution) (P : Finished → Prop) : Prop where
  grows : Grows (.over ids) s s'
  constants : ∀ name, s.defs.lookup .constant name = none →
    s'.defs.lookup .constant name ≠ none → name ∈ constants
  nodes : ids.Nodup → (uses.map Resolution.id).Nodup ∧ ∀ use ∈ uses, use.id ∈ ids
  admits : s.Apart first ids → ∀ w : Finished,
    w.Completes catalog (fun id => id ∈ ids ∨ s.nextId ≤ id ∧ id < s'.nextId) s' →
    (∀ use ∈ uses, w.resolved use) → P w ∧ ∀ use ∈ uses, w.Supports use

private theorem AnalysisState.touches_marked {nodes : Nat → Prop} {d : Definitions}
    {marks : List Mark} (h : ∀ m ∈ marks, m.Of d nodes) (s : AnalysisState) :
    Touches nodes s (s.marked marks) := by
  induction marks generalizing s with
  | nil => exact .refl s
  | cons m rest ih =>
    obtain ⟨hm, hrest⟩ := List.forall_mem_cons.mp h
    refine .trans ?_ (ih hrest (s.mark m))
    cases m with
    | use kind name => exact ⟨.refl s, s.defs.bare_useAs kind name, rfl, rfl, fun _ _ => rfl⟩
    | record id type =>
      refine ⟨.refl s, rfl, rfl, rfl, fun other hother => ?_⟩
      change (s.types.insert id type).get? other = _
      rw [Table.get?_insert, if_neg]
      rintro rfl
      exact hother hm

private theorem Scope.uses_sublist (scope : Scope) (s : AnalysisState)
    (names : List (Nat × String)) :
    ((scope.uses s names).map Resolution.id).Sublist (names.map Prod.fst) := by
  induction names with
  | nil => exact .refl _
  | cons p rest ih =>
    unfold Scope.uses at ih ⊢
    rw [filterMap_cons, map_cons]
    split
    · exact ih.cons _
    · rename_i use huse
      obtain ⟨entity, _, rfl⟩ := Option.map_eq_some_iff.mp huse
      exact ih.cons_cons _

private theorem AnalysisState.Grows.over_mono {s' : AnalysisState} {ids ids' : List Nat}
    (h : Grows (.over ids) s s') (hsub : ids ⊆ ids') : Grows (.over ids') s s' :=
  ⟨h.errors, h.defs, h.nextId, fun id hid hnot => h.types id hid fun hmem => hnot (hsub hmem)⟩

namespace Analyzes

variable {catalog : Catalog} {first : Nat} {s s₁ s₂ : AnalysisState} {ids ids' : List Nat}
  {constants constants' : List String} {uses uses' : List Resolution} {P Q : Finished → Prop}

section

variable (h : Analyzes catalog first s s₁ ids constants uses P)

include h

private theorem imp_of_apart (hPQ : s.Apart first ids → ∀ w, P w → Q w) :
    Analyzes catalog first s s₁ ids constants uses Q where
  grows := h.grows
  constants := h.constants
  nodes := h.nodes
  admits hapart w hw huses := (h.admits hapart w hw huses).imp_left (hPQ hapart w)

/-- Less may be said. -/
theorem imp (hPQ : ∀ w, P w → Q w) : Analyzes catalog first s s₁ ids constants uses Q :=
  h.imp_of_apart fun _ => hPQ

/-- The declarations so far are among those of the finished analysis, and are all its functions and
events. -/
theorem keeping :
    Analyzes catalog first s s₁ ids constants uses fun w => P w ∧
    w.Completes catalog (fun _ => False) s where
  grows := h.grows
  constants := h.constants
  nodes := h.nodes
  admits hapart w hw huses :=
    (h.admits hapart w hw huses).imp_left fun hP => ⟨hP, (hw.mono nofun).before h.grows nofun⟩

/-- More constants may be there. -/
theorem weaken (hconsts : constants ⊆ constants') :
    Analyzes catalog first s s₁ ids constants' uses P where
  grows := h.grows
  constants name hnone hsome := hconsts (h.constants name hnone hsome)
  nodes := h.nodes
  admits := h.admits

/-- One analysis after another. -/
theorem and (h' : Analyzes catalog first s₁ s₂ ids' constants' uses' Q) :
    Analyzes catalog first s s₂ (ids ++ ids') (constants ++ constants')
    (uses ++ uses') fun w => P w ∧ Q w where
  grows := (h.grows.over_mono (subset_append_left ids ids')).trans
    (h'.grows.over_mono (subset_append_right ids ids'))
  constants name hnone hsome := by
    by_cases hmiddle : s₁.defs.lookup .constant name = none
    · exact mem_append_right _ (h'.constants name hmiddle hsome)
    · exact mem_append_left _ (h.constants name hnone hmiddle)
  nodes hnodup := by
    obtain ⟨hids, hids', hdisj⟩ := nodup_append.mp hnodup
    obtain ⟨hfirst, hmem⟩ := h.nodes hids
    obtain ⟨hsnd, hmem'⟩ := h'.nodes hids'
    rw [map_append]
    refine ⟨nodup_append.mpr ⟨hfirst, hsnd, fun id hid id' hid' heq => ?_⟩, ?_⟩
    · obtain ⟨use, huse, rfl⟩ := mem_map.mp hid
      obtain ⟨use', huse', rfl⟩ := mem_map.mp hid'
      exact hdisj _ (hmem use huse) _ (hmem' use' huse') heq
    · rw [forall_mem_append]
      exact ⟨fun use huse => mem_append_left _ (hmem use huse), fun use huse =>
        mem_append_right _ (hmem' use huse)⟩
  admits hapart w hw huses := by
    obtain ⟨hids, hids', hdisj⟩ := nodup_append.mp hapart.nodup
    obtain ⟨hlt, hlt'⟩ := forall_mem_append.mp hapart.lt
    rw [forall_mem_append] at huses
    have hle := h.grows.nextId
    have hle' := h'.grows.nextId
    have hfirst : w.Completes catalog (fun id => id ∈ ids ∨ s.nextId ≤ id ∧ id < s₁.nextId) s₁ := by
      refine (hw.mono fun id hid => ?_).before h'.grows fun id hid => ?_
      · rcases hid with hid | hid
        · exact Or.inl (mem_append_left _ hid)
        · exact Or.inr ⟨hid.1, by omega⟩
      · rcases hid with hid | hid
        · exact ⟨Nat.lt_of_lt_of_le (hlt id hid) hle, fun hmem => hdisj id hid id hmem rfl⟩
        · refine ⟨hid.2, fun hmem => ?_⟩
          have := hlt' id hmem
          omega
    have hsnd : w.Completes catalog (fun id => id ∈ ids' ∨ s₁.nextId ≤ id ∧ id < s₂.nextId) s₂ := by
      refine hw.mono fun id hid => ?_
      rcases hid with hid | hid
      · exact Or.inl (mem_append_right _ hid)
      · exact Or.inr ⟨by omega, hid.2⟩
    obtain ⟨hP, hsupp⟩ := h.admits ⟨hids, hlt, hapart.first⟩ w hfirst huses.1
    obtain ⟨hQ, hsupp'⟩ := h'.admits
      ⟨hids', fun id hid => Nat.lt_of_lt_of_le (hlt' id hid) hle, Nat.le_trans hapart.first hle⟩ w
      hsnd huses.2
    exact ⟨⟨hP, hQ⟩, forall_mem_append.mpr ⟨hsupp, hsupp'⟩⟩

/-- One analysis after another that has no nodes of its own. -/
theorem and_nil (h' : Analyzes catalog first s₁ s₂ [] constants' [] Q) :
    Analyzes catalog first s s₂ ids (constants ++ constants') uses fun w => P w ∧ Q w := by
  simpa using h.and h'

end

/-- An analysis that declares nothing and resolves no names. -/
theorem of_grows (h : Grows ⟨fun _ _ => False, fun _ => False⟩ s s₁) (hP : ∀ w, P w) :
    Analyzes catalog first s s₁ [] [] [] P where
  grows := ⟨h.errors, h.defs.widen nofun, h.nextId, fun id hid _ => h.types id hid nofun⟩
  constants name hnone hsome := (h.defs.added _ name hnone hsome).elim
  nodes _ := ⟨nodup_nil, nofun⟩
  admits _ w _ _ := ⟨hP w, nofun⟩

private theorem of_inserts {kind : DeclarationKind} {decl : Declaration} {span : Span}
    (change : Definitions → Definitions)
    (hinserts : s.defs.Inserts kind name decl span (change s.defs))
    (hfresh : s.defs.Undeclared name) (hkind : kind.isValue)
    (hconsts : kind = .constant → name ∈ constants) :
    Analyzes catalog first s (s.declare change) [] constants [] fun w => w.defs.lookup kind name =
      some decl where
  grows := ⟨.refl _, .of_inserts hinserts hfresh hkind, le_rfl, fun _ _ _ => rfl⟩
  constants other hnone hsome := by
    change (change s.defs).lookup .constant other ≠ none at hsome
    rw [hinserts.adds] at hsome
    split at hsome
    · rename_i heq
      exact heq.2 ▸ hconsts heq.1.symm
    · exact absurd hnone hsome
  nodes _ := ⟨nodup_nil, nofun⟩
  admits _ w hw _ := by
    refine ⟨hw.kept kind name decl ?_, nofun⟩
    change (change s.defs).lookup kind name = some decl
    rw [hinserts.adds, if_pos ⟨rfl, rfl⟩]

/-- An analysis that leaves marks on its nodes, of which some may be new. What is known then, `K`,
carries over to contexts that say the same of the nodes. -/
theorem of_marks (first : Nat) {scope : Scope} {names : List (Nat × String)} {marks : List Mark}
    {next : Nat}
    {nodes : List Nat} {K : TypingContext → Definitions → Prop} (hknows : scope.Knows s known)
    (hmarks : ∀ m ∈ marks, m.Of s.defs (· ∈ nodes)) (hnext : s.nextId ≤ next)
    (hnodes : ∀ id ∈ nodes, id ∈ ids ∨ s.nextId ≤ id ∧ id < next)
    (hfst : (names.map Prod.fst).Sublist ids)
    (hmono : ∀ {c c' d d'}, K c d → c.Refines c' nodes names → d.Keeps d' → K c' d')
    (hnames : ∀ {c d}, K c d → ∀ p ∈ names,
      ∃ entity, c.denotes p.1 p.2 entity ∧ c.types.get? p.1 = some entity.type)
    (hK : ids.Nodup → K (scope.typing s ({ s with nextId := next }.marked marks)) s.defs) :
    Analyzes scope.catalog first s ({ s with nextId := next }.marked marks) ids []
      (scope.uses s names) fun w => K (w.typing scope.function known) w.defs := by
  have htouch := touches_marked hmarks { s with nextId := next }
  have hgrows : Grows (.over ids) s ({ s with nextId := next }.marked marks) := by
    refine ⟨htouch.errors, .of_bare_eq htouch.bare, by simpa using hnext, fun id hlt hnot => ?_⟩
    refine htouch.types id fun hmem => ?_
    rcases hnodes id hmem with hmem | hnew
    · exact hnot hmem
    · omega
  refine ⟨hgrows, fun name hnone hsome => ?_, fun hnodup => ?_, fun hapart w hw huses => ?_⟩
  · rw [htouch.lookup] at hsome
    exact absurd hnone hsome
  · have hsublist := (scope.uses_sublist s names).trans hfst
    exact ⟨hnodup.sublist hsublist, fun _ huse => hsublist.subset (mem_map_of_mem huse)⟩
  · rw [nextId_marked] at hw
    have hkeeps : s.defs.Keeps w.defs := fun kind name decl hdecl =>
      hw.kept kind name decl (hgrows.defs.kept kind name decl hdecl)
    have hK := hK hapart.nodup
    exact ⟨hmono hK (hw.refines hgrows (errors_marked marks) hknows hnodes huses) hkeeps,
      hw.supports hgrows hknows (fun p hp => Or.inl (hfst.subset (mem_map_of_mem hp))) (hnames hK)⟩

end Analyzes

namespace Expr

mutual

private theorem names_sublist : ∀ e : Expr, (e.names.map Prod.fst).Sublist e.ids
  | .ident _ _ => .refl _
  | .literal _ _ => nil_sublist _
  | .call _ _ args => (namesAll_sublist args).cons _
  | .cast _ _ operand | .not _ operand | .group _ operand => (names_sublist operand).cons _
  | .list _ items => (namesAll_sublist items).cons _
  | .binary _ _ left right => by
    rw [names, map_append]
    exact ((names_sublist left).append (names_sublist right)).cons _

private theorem namesAll_sublist :
    ∀ es : List Expr, ((namesAll es).map Prod.fst).Sublist (idsAll es)
  | [] => .refl _
  | e :: rest => by
    rw [namesAll, map_append]
    exact (names_sublist e).append (namesAll_sublist rest)

end

/-- Names of an expression that may be missing stand at some of its nodes, in order. -/
theorem namesOf?_sublist (value : Option Expr) :
    ((value.toList.flatMap names).map Prod.fst).Sublist (idsOf? value) := by
  cases value with
  | none => exact .refl _
  | some e => simpa [idsOf?] using e.names_sublist

end Expr

namespace TypingContext

variable {c c' : TypingContext} {d d' : Definitions}

private theorem CanCall.mono {args : List Expr} {types : List DataType}
    (h : c.CanCall d name args types) (hcat : c'.catalog = c.catalog)
    (hlists : ∀ name, c.lists name → c'.lists name) (hkeeps : d.Keeps d') :
    c'.CanCall d' name args types := by
  rcases h with ⟨f, hf, hparams⟩ | hevent | ⟨b, signature, hb, hresolve, hargs⟩
  · exact Or.inl ⟨f, hkeeps _ _ _ hf, hparams⟩
  · exact Or.inr (Or.inl (hkeeps.lookup_ne_none hevent))
  · rw [← hcat] at hb
    exact Or.inr (Or.inr ⟨b, signature, hb, hresolve, hargs.refine hlists⟩)

private theorem CanAssign.mono {target : String} {op : AssignOp} (h : c.CanAssign d target op)
    (hcat : c'.catalog = c.catalog) (hkeeps : d.Keeps d') : c'.CanAssign d' target op := by
  unfold CanAssign at h ⊢
  rw [hcat]
  exact h.imp_left hkeeps.lookup_ne_none

end TypingContext

/-- A scope knows the constants that an analysis declares. -/
theorem Scope.Knows.after {scope : Scope} {s s' : AnalysisState} {catalog : Catalog}
    {constants : List String} {P : Finished → Prop} {first : Nat} (hknows : scope.Knows s known)
    (h : Analyzes catalog first s s' ids constants uses P) :
    scope.Knows s' (known ++ constants) where
  function name hname := h.grows.defs.kept.lookup_ne_none (hknows.function name hname)
  constants name hsome := by
    by_cases hbefore : s.defs.lookup .constant name = none
    · exact mem_append_right _ (h.constants name hbefore hsome)
    · exact mem_append_left _ (hknows.constants name hbefore)

/-- Marks declare no constants. -/
theorem Scope.Knows.marked {scope : Scope} {s : AnalysisState} (hknows : scope.Knows s known)
    (marks : List Mark) : scope.Knows (s.marked marks) known := by
  constructor <;> rw [lookup_marked]
  exacts [hknows.function, hknows.constants]

private theorem Scope.initializerUses_eq {scope : Scope} {name : String} {type : Option DataType}
    {value : Option Expr} {hoisted : Bool}
    (h : ((value.bind Expr.items?).isSome || type.any DataType.isList) ∨ hoisted = false)
    (span : Span) :
    scope.initializerUses s (.varDecl name type value hoisted span) =
      { scope with declaring := some name }.uses s (value.toList.flatMap Expr.names) := by
  cases value with
  | none => rfl
  | some value =>
    rcases h with h | h
    · have hlist : (value.items?.isSome || type.any DataType.isList) = true := h
      simp [Scope.initializerUses, hlist]
    · simp [Scope.initializerUses, h]

namespace Analyzer

variable {s s' : AnalysisState} {scope : Scope} {known : List String} {marks : List Mark}
  {type : Option DataType} {span : Span} (first : Nat)

private theorem inferred_analyzes {e : Expr} {found : DataType}
    (h : e.inferred? (scope.view s) = some (found, marks)) (hknows : scope.Knows s known) :
    Analyzes scope.catalog first s (s.marked marks) e.ids [] (scope.uses s e.names) fun w =>
      e.Typed (w.typing scope.function known) found :=
  .of_marks first (K := fun c _ => e.Typed c found) hknows
    ((leaves_exprType scope e fun _ h => h).of_mem h)
    le_rfl (fun _ => Or.inl) e.names_sublist (fun h href _ => h.refine href)
    (fun h => h.names) fun hnodup => typed_of_inferred? hnodup h

/-- What is expected is inferred. -/
theorem inferred?_of_expects? {v : View} {e : Expr} {expected : DataType} {a : Unit}
    (h : v.expects? e expected = some (a, marks)) : e.inferred? v = some (expected, marks) := by
  obtain ⟨⟨found, marks'⟩, hfound, h⟩ := bind_eq_some_iff.mp h
  split at h
  · rename_i heq
    cases h
    rw [hfound, show found = expected from heq]
  · cases h

private theorem heads_analyzes :
    ∀ {kind : LoopKind}, (scope.view s).heads? kind = some ((), marks) → scope.Knows s known →
      Analyzes scope.catalog first s (s.marked marks) kind.ids [] (scope.uses s kind.names) fun w =>
      kind.Typed (w.typing scope.function known)
  | .forever, h, _ => by
    cases h
    exact .of_grows (.refl s) fun _ => trivial
  | .times _, h, hknows | .until _, h, hknows =>
    inferred_analyzes first (inferred?_of_expects? h) hknows

section Calls

variable {callee : String} {args : List Expr} {types : List DataType} {stops : Bool}
  {more : List Mark}

private theorem canCall_of_calls?
    (h : (scope.view s).calls? callee args types = some (stops, more)) :
    (scope.typing s s').CanCall s.defs callee args types := by
  unfold View.calls? at h
  split at h
  · rename_i f hf
    split at h
    · rename_i htypes
      exact Or.inl ⟨f, hf, htypes.symm⟩
    · cases h
  · split at h
    · rename_i hevent
      exact Or.inr (Or.inl (Option.isSome_iff_ne_none.mp hevent))
    · obtain ⟨b, hb, h⟩ := bind_eq_some_iff.mp h
      obtain ⟨signature, hsig, h⟩ := bind_eq_some_iff.mp h
      split at h
      · rename_i htakes
        exact Or.inr (Or.inr ⟨b, signature, hb, hsig, namesLists_of_takesAll htakes⟩)
      · cases h

private theorem stops_of_calls? {w : Finished}
    (h : (scope.view s).calls? callee args types = some (stops, more))
    (hw : w.Completes scope.catalog (fun _ => False) s) {function : Option String}
    (htypes : Expr.TypedAll (w.typing function known) args types) (span : Span) :
    stops = (w.context none).stops (.call callee args span) := by
  have hcontains (kind : DeclarationKind) (hkind : kind.isValue = false) :
      (w.defs.lookup kind callee).isSome = (s.defs.lookup kind callee).isSome := by
    rw [Bool.eq_iff_iff, Option.isSome_iff_ne_none, Option.isSome_iff_ne_none]
    exact ⟨hw.introduced kind callee hkind, hw.kept.lookup_ne_none⟩
  have hfun : (w.context none).defs.functions.contains callee =
      (s.defs.functions.get? callee).isSome := by
    simpa [Definitions.lookup, Table.contains, Finished.context] using hcontains .function rfl
  have hevent : (w.context none).defs.events.contains callee =
      (s.defs.events.get? callee).isSome := by
    simpa [Definitions.lookup, Table.contains, Finished.context] using hcontains .event rfl
  unfold LowerContext.stops
  simp only [hfun, hevent]
  unfold View.calls? at h
  split at h
  · rename_i hf
    obtain ⟨f, hget, _⟩ := Definitions.exists_function_of_lookup hf
    split at h <;> cases h
    simp [hget]
  · rename_i hf
    have hnone : s.defs.functions.get? callee = none := by
      cases hget : s.defs.functions.get? callee with
      | none => rfl
      | some f => exact (hf _ (Definitions.lookup_function hget)).elim
    have hsame :
        ((scope.view s).lookup .event callee).isSome = (s.defs.events.get? callee).isSome := by
      simp [Scope.view, Definitions.lookup]
    rw [hsame] at h
    split at h
    · rename_i hevent
      split at h <;> cases h
      simp [hevent]
    · rename_i hevent
      obtain ⟨b, hb, h⟩ := bind_eq_some_iff.mp h
      obtain ⟨signature, hsig, h⟩ := bind_eq_some_iff.mp h
      split at h <;> cases h
      have hget : (w.context none).catalog.statements.get? callee = some b := by
        change w.catalog.statements.get? callee = some b
        rwa [hw.catalog]
      have hmap : args.mapM (fun arg => (w.context none).types.get? arg.id) = some types :=
        htypes.recorded
      simp [hnone, hevent, hget, LowerContext.signature, hmap, hsig]

private theorem call_analyzes
    (h : Clean (statement scope (.call callee args span)) s ([.call callee args span], stops) s')
    (hknows : scope.Knows s known) :
    Analyzes scope.catalog first s s' (Expr.idsAll args) []
    (scope.uses s (Expr.namesAll args)) fun w =>
      (∃ types, Expr.TypedAll (w.typing scope.function known) args types ∧
        (w.typing scope.function known).CanCall w.defs callee args types) ∧
      stops = (w.context none).stops (.call callee args span) := by
  obtain ⟨types, marks, more, htypes, hcalls, _, rfl⟩ := clean_call_iff.mp h
  have hmore : ∀ m ∈ more, m.Of s.defs fun _ => False :=
    (leaves_callStatement callee args types span).of_mem hcalls
  have hmarks : ∀ m ∈ marks ++ more, m.Of s.defs (· ∈ Expr.idsAll args) :=
    forall_mem_append.mpr ⟨(leaves_exprTypes scope args fun _ h => h).of_mem htypes,
      (leaves_callStatement callee args types span).of_mem hcalls⟩
  have hanalyzes :=
    Analyzes.of_marks first (K := fun c d => Expr.TypedAll c args types ∧
      c.CanCall d callee args types)
    hknows hmarks le_rfl (fun _ => Or.inl) (Expr.namesAll_sublist args)
    (fun h href hkeeps => ⟨h.1.refine href, h.2.mono href.catalog href.lists hkeeps⟩)
    (fun h => h.1.names) fun hnodup => ⟨?_, canCall_of_calls? hcalls⟩
  · exact hanalyzes.keeping.imp fun w h => ⟨⟨types, h.1⟩, stops_of_calls? hcalls h.2 h.1.1 span⟩
  · refine (typedAll_of_inferredAll? hnodup htypes).refine <| scope.typing_refines rfl rfl
      (fun _ => errors_marked marks) fun id _ => ?_
    exact marked_append marks more ▸ (touches_marked hmore (s.marked marks)).types id not_false

end Calls

section Assignments

variable {target : String} {op : AssignOp} {found : DataType} {more : List Mark}

private theorem canAssign_of_assigns? (h : (scope.view s).assigns? target op found = some more) :
    (scope.typing s s').CanAssign s.defs target op := by
  unfold View.assigns? at h
  split at h
  · cases h
  split at h
  · rename_i v hv
    have hlook : s.defs.lookup .variable target = some (.scalar v) := hv
    exact Or.inl (by simp [hlook])
  · split at h
    · cases h
    · obtain ⟨property, hproperty, h⟩ := bind_eq_some_iff.mp h
      split at h
      · rename_i hsupp
        exact Or.inr ⟨property, hproperty, ((Bool.and_eq_true _ _).mp hsupp).2⟩
      · cases h

private theorem assign_analyzes {outs : List Stmt} {stops : Bool}
    (h : Clean (statement scope (.assign target op value span)) s (outs, stops) s')
    (hknows : scope.Knows s known) :
    Analyzes scope.catalog first s s' value.ids [] (scope.uses s value.names) fun w =>
      (∃ type, value.Typed (w.typing scope.function known) type) ∧
        (w.typing scope.function known).CanAssign w.defs target op := by
  obtain ⟨found, marks, more, hfound, hassigns, _, rfl⟩ := clean_assign_iff.mp h
  have hmore : ∀ m ∈ more, m.Of s.defs fun _ => False := of_mem_assigns? hassigns
  have hmarks : ∀ m ∈ marks ++ more, m.Of s.defs (· ∈ value.ids) :=
    forall_mem_append.mpr ⟨(leaves_exprType scope value fun _ h => h).of_mem hfound,
      of_mem_assigns? hassigns⟩
  refine Analyzes.of_marks first (K := fun c d => (∃ type, value.Typed c type) ∧
    c.CanAssign d target op) hknows hmarks le_rfl (fun _ => Or.inl) value.names_sublist
    (fun h href hkeeps =>
    ⟨h.1.imp fun _ htyped => htyped.refine href, h.2.mono href.catalog hkeeps⟩)
    (fun h => h.1.elim fun _ h => h.names) fun hnodup =>
      ⟨⟨found, ?_⟩, canAssign_of_assigns? hassigns⟩
  refine (typed_of_inferred? hnodup hfound).refine <| scope.typing_refines rfl rfl
    (fun _ => errors_marked marks) fun id _ => ?_
  exact marked_append marks more ▸ (touches_marked hmore (s.marked marks)).types id not_false

end Assignments

section Lists

variable {name : String} {declared element : Option DataType}

/-- Elements are inferred. -/
theorem exists_inferredAll?_of_elements? {v : View} {items : List Expr}
    (h : v.elements? declared items = some (element, marks)) :
    ∃ types, Expr.inferredAll? v items = some (types, marks) := by
  induction items generalizing declared marks with
  | nil =>
    cases h
    exact ⟨[], by rw [Expr.inferredAll?]⟩
  | cons item rest ih =>
    obtain ⟨⟨next, first⟩, hfirst, h⟩ := bind_eq_some_iff.mp h
    obtain ⟨⟨_, more⟩, hmore, heq⟩ := Option.map_eq_some_iff.mp h
    cases heq
    obtain ⟨⟨found, marks⟩, hfound, hitem⟩ := bind_eq_some_iff.mp hfirst
    obtain ⟨types, htypes⟩ := ih hmore
    have hmarks : marks = first := by
      cases declared <;> dsimp only at hitem <;> split at hitem <;> cases hitem <;> rfl
    exact ⟨found :: types, by simp [Expr.inferredAll?, hfound, htypes, hmarks]⟩

private theorem id_not_mem_items : ∀ {e : Expr} {items : List Expr}, e.ids.Nodup →
    e.items? = some items → e.id ∉ Expr.idsAll items
  | .list tag items, _, hnodup, hitems => by
    cases hitems
    exact (nodup_cons.mp hnodup).1
  | .group tag inner, items, hnodup, hitems => by
    have hsub := Expr.idsAll_sublist_of_items? (show inner.items? = some items from hitems)
    exact fun hmem => (nodup_cons.mp hnodup).1 (hsub.subset hmem)

/-- A list has the names of its items. -/
theorem names_of_items? :
    ∀ (e : Expr) {items : List Expr}, e.items? = some items → e.names = Expr.namesAll items
  | .list _ _, _, hitems => by
    cases hitems
    rfl
  | .group _ inner, _, hitems => names_of_items? inner hitems

private theorem typed_items {items : List Expr}
    (h : (scope.view s).items? declared value items = some (element, marks))
    (hitems : value.items? = some items) (hnodup : value.ids.Nodup) :
    ∃ types, Expr.TypedAll (scope.typing s (s.marked marks)) items types := by
  obtain ⟨⟨_, first⟩, helements, h⟩ := bind_eq_some_iff.mp h
  obtain ⟨types, htypes⟩ := exists_inferredAll?_of_elements? helements
  have htyped :=
    typedAll_of_inferredAll? (hnodup.sublist (Expr.idsAll_sublist_of_items? hitems)) htypes
  split at h
  · rename_i type _
    cases h
    have hungrouped : value.ungrouped.id ∉ Expr.idsAll items := by
      refine id_not_mem_items (hnodup.sublist value.ids_ungrouped) ?_
      unfold Expr.items? at hitems ⊢
      split at hitems
      · rename_i heq
        cases hitems
        rw [heq]
        rfl
      · cases hitems
    -- The list gets its type after its items.
    have hrecords : ∀ m ∈ [Mark.record value.id type, .record value.ungrouped.id type],
        m.Of s.defs (· ∉ Expr.idsAll items) := by
      simpa using ⟨id_not_mem_items hnodup hitems, hungrouped⟩
    refine ⟨types, htyped.refine <|
      scope.typing_refines rfl rfl (fun _ => errors_marked first) fun id hid => ?_⟩
    exact marked_append first _ ▸ (touches_marked hrecords (s.marked first)).types id
      (not_not_intro hid)
  · split at h <;> cases h
    exact ⟨types, htyped⟩

private theorem listed_analyzes {value : Option Expr}
    (h : ({ scope with declaring := some name }.view s).listed? type value = some (element, marks))
    (hknows : scope.Knows s known) :
    Analyzes scope.catalog first s (s.marked marks) (Expr.idsOf? value) []
      ({ scope with declaring := some name }.uses s (value.toList.flatMap Expr.names)) fun w =>
      (w.typing scope.function known).CanInitialize value := by
  have hknows : { scope with declaring := some name }.Knows s known :=
    ⟨hknows.function, hknows.constants⟩
  have hmarks : ∀ m ∈ marks, m.Of s.defs (· ∈ Expr.idsOf? value) :=
    (leaves_listElement name type (fun _ h => h) .nowhere).of_mem h
  refine Analyzes.of_marks first (K := fun c _ => c.CanInitialize value) hknows hmarks le_rfl
    (fun _ => Or.inl) (Expr.namesOf?_sublist value) ?_ ?_ fun hnodup => ?_
  · rintro c c' d d' htyped href _ e rfl
    obtain ⟨items, types, hitems, htypes⟩ := htyped e rfl
    refine ⟨items, types, hitems, htypes.refine (href.mono ?_ ?_)⟩
    · simpa [Expr.idsOf?] using (Expr.idsAll_sublist_of_items? hitems).subset
    · simp [names_of_items? e hitems]
  · rintro c d htyped p hp
    obtain ⟨e, he, hp⟩ := mem_flatMap.mp hp
    obtain ⟨items, types, hitems, htypes⟩ := htyped e (Option.mem_toList.mp he)
    exact htypes.names p (names_of_items? e hitems ▸ hp)
  · rintro e rfl
    unfold View.listed? at h
    split at h
    · cases h
    · obtain ⟨items, hitems, h⟩ := bind_eq_some_iff.mp h
      obtain ⟨types, htyped⟩ := typed_items h hitems (by simpa [Expr.idsOf?] using hnodup)
      exact ⟨items, types, hitems, htyped⟩

end Lists

section Declarations

variable {name : String}

/-- What is found of a declaration of a variable or list: what stands for it is accepted, and a
variable that holds one value is assigned what it starts with. -/
structure FoundVariable (scope : Scope) (w : Finished) (known : List String) (first : Nat)
    (name : String) (type : Option DataType) (value : Option Expr) (span : Span) (s : AnalysisState)
    (p : Stmt × Option Stmt) (s' : AnalysisState) : Prop where
  decl : p.1.Accepted w scope.function known
  assign : Stmt.AcceptedAll w scope.function known p.2.toList
  list : Stmt.declaresList type value = true → p = (.varDecl name type value false span, none)
  starts : Stmt.declaresList type value = false → ∃ target init,
    Stmt.StartsWith w.types first type value span target init ∧
      p = (.varDecl name (some target) none true span, some (.assign name .set init span))
  warnings : s'.warnings = s.warnings

/-- What stands for a clean declaration of a variable or list is accepted. -/
theorem declareVariable_analyzes {value : Option Expr} {p : Stmt × Option Stmt}
    (h : Clean (declareVariable scope name type value false span) s p s')
    (hfresh : s.defs.Undeclared name) (hknows : scope.Knows s known) :
    Analyzes scope.catalog first s s' (Expr.idsOf? value) []
      (scope.initializerUses s (.varDecl name type value false span)) fun w =>
        FoundVariable scope w known first name type value span s p s' := by
  cases hlist : Stmt.declaresList type value with
  | true =>
    obtain ⟨element, marks, hlisted, rfl, rfl⟩ := (clean_declareVariable_list_iff hlist).mp h
    rw [Scope.initializerUses_eq (Or.inl hlist)]
    have hanalyzes := listed_analyzes first hlisted hknows
    cases element with
    | none =>
      exact hanalyzes.imp fun w h =>
        ⟨h, trivial, fun _ => rfl, by simp [hlist], warnings_marked marks⟩
    | some element =>
      have hadd : Analyzes scope.catalog first (s.marked marks) _ [] [] [] _ :=
        .of_inserts (·.addList name element span) (Definitions.inserts_addList _ name element span)
          (hfresh.of_lookup_eq (lookup_marked marks)) rfl (by rintro ⟨⟩)
      exact (hanalyzes.and_nil hadd).imp fun w h =>
        ⟨h.1, trivial, fun _ => rfl, by simp [hlist], warnings_marked marks⟩
  | false =>
    obtain ⟨init, target, found, marks, next, rfl, hinit, _, _, hids, hstarts, hnext, rfl⟩ :=
      exists_of_clean_declareVariable hlist h
    rw [Scope.initializerUses_eq (Or.inr rfl)]
    have hstart : ((Expr.idsOf? value).Nodup → init.ids.Nodup) ∧ value.toList.flatMap Expr.names =
        init.names := by
      cases value with
      | none =>
        obtain ⟨_, _, _, rfl⟩ := hstarts
        exact ⟨fun _ => nodup_singleton _, rfl⟩
      | some value =>
        obtain ⟨rfl, _⟩ := hstarts
        simp [Expr.idsOf?]
    have hfst := Expr.namesOf?_sublist value
    rw [hstart.2] at hfst ⊢
    have hknows : { scope with declaring := some name }.Knows s known :=
      ⟨hknows.function, hknows.constants⟩
    have hanalyzes := Analyzes.of_marks first (K := fun c _ => init.Typed c found) hknows
      ((leaves_exprType _ init fun _ h => h).of_mem hinit) hnext hids hfst
      (fun h href _ => h.refine href) (fun h => h.names)
      fun hnodup => typed_of_inferred? (s := { s with nextId := next }) (hstart.1 hnodup) hinit
    have hadd : Analyzes scope.catalog first ({ s with nextId := next }.marked marks) _ []
        [] [] _ :=
      .of_inserts (·.addVariable name target span)
        (Definitions.inserts_addVariable _ name target span)
        (hfresh.of_lookup_eq (lookup_marked marks)) rfl (by rintro ⟨⟩)
    refine (hanalyzes.and_nil hadd).imp_of_apart ?_
    rintro hapart w ⟨htyped, hlook⟩
    refine ⟨by rintro _ ⟨⟩, ⟨⟨⟨found, htyped⟩, Or.inl (by simp [hlook])⟩, trivial⟩, by simp [hlist],
      fun _ => ⟨target, init, ?_, rfl⟩, warnings_marked marks⟩
    cases value with
    | none =>
      obtain ⟨htype, default, hdefault, hliteral⟩ := hstarts
      exact ⟨htype, s.nextId, default, hapart.first, hdefault, hliteral⟩
    | some value =>
      obtain ⟨rfl, htarget⟩ := hstarts
      exact ⟨rfl, found, htyped.recorded, htarget⟩

/-- The value of a constant that is cleanly declared has the type of the constant. -/
theorem declareConstant_analyzes {a : Unit}
    (h : Clean (declareConstant scope name type value span) s a s')
    (hfresh : s.defs.Undeclared name) (hknows : scope.Knows s known) :
    Analyzes scope.catalog first s s' value.ids [name]
    (scope.initializerUses s (.constDecl name type value span))
      fun w => (∃ c, w.defs.lookup .constant name = some (.constant c) ∧
        value.Typed (w.typing scope.function known) c.type) ∧ s'.warnings = s.warnings := by
  obtain ⟨found, marks, hfound, _, _, rfl⟩ := clean_declareConstant_iff.mp h
  have hknows : { scope with declaring := some name }.Knows s known :=
    ⟨hknows.function, hknows.constants⟩
  have hadd : Analyzes scope.catalog first (s.marked marks) _ [] [name] [] _ :=
    .of_inserts (·.addConstant name found value.value? span)
      (Definitions.inserts_addConstant _ name found value.value? span)
      (hfresh.of_lookup_eq (lookup_marked marks)) rfl fun _ => mem_singleton_self name
  refine ((inferred_analyzes first hfound hknows).and_nil hadd).imp ?_
  exact fun w ⟨htyped, hlook⟩ => ⟨⟨_, hlook, htyped⟩, warnings_marked marks⟩

end Declarations

/-- What is found of a statement by a clean analysis: what stands for it is accepted, whether
control never passes it, and the warnings. -/
structure Found (scope : Scope) (w : Finished) (known : List String) (first : Nat) (stmt : Stmt)
    (s : AnalysisState) (result : List Stmt × Bool) (s' : AnalysisState) : Prop where
  accepted : Stmt.AcceptedAll w scope.function known result.1
  stops : result.2 = (w.context none).stops stmt
  hoists : stmt.HoistsTo w.types first result.1
  warnings : s'.warnings = s.warnings ++ scope.options.unreachableWarnings
    ((w.context none).unreached stmt)

/-- What is found of the statements of a body. -/
structure FoundAll (scope : Scope) (w : Finished) (known : List String) (first : Nat)
    (stopped : Bool) (stmts : List Stmt) (s : AnalysisState) (outs : List Stmt)
    (s' : AnalysisState) : Prop where
  accepted : Stmt.AcceptedAll w scope.function known outs
  hoists : Stmt.HoistsAll w.types first stmts outs
  warnings : s'.warnings =
    s.warnings ++ scope.options.unreachableWarnings ((w.context none).unreachedAll stopped stmts)

private theorem warnings_of_unreached {c : LowerContext} {stmt : Stmt}
    (hunreached : c.unreached stmt = []) (hwarns : s'.warnings = s.warnings)
    (options : AnalysisOptions) :
    s'.warnings = s.warnings ++ options.unreachableWarnings (c.unreached stmt) := by
  rw [hunreached, hwarns]
  simp [AnalysisOptions.unreachableWarnings]

mutual

/-- What stands for a clean statement is accepted, and what control never reaches in it is warned
of. -/
theorem statement_analyzes (scope : Scope) : ∀ (stmt : Stmt) {s s' : AnalysisState}
    {known : List String} {result : List Stmt × Bool}, Clean (statement scope stmt) s result s' →
    stmt.written → scope.Knows s known →
    Analyzes scope.catalog first s s' stmt.ids (Stmt.constantsAll result.1)
    (stmt.uses scope s) fun w =>
      Found scope w known first stmt s result s'
  | .varDecl _ _ _ true _, _, _, _, _, _, hwritten, _ => by cases hwritten
  | .varDecl name type value false span, s, s', known, _, h, _, hknows => by
    obtain ⟨hfree, p, hclean, rfl⟩ := clean_varDecl_iff.mp h
    refine ((declareVariable_analyzes first hclean hfree.2.1 hknows).imp fun w hw => ?_).weaken
      (nil_subset _)
    refine ⟨⟨hw.decl, hw.assign.mono (subset_append_left _ _)⟩, rfl, ?_,
      warnings_of_unreached (by rw [LowerContext.unreached]) hw.warnings _⟩
    rw [Stmt.HoistsTo]
    split
    · rename_i hlist
      rw [hw.list hlist]
      rfl
    · rename_i hlist
      obtain ⟨target, init, hstarts, rfl⟩ := hw.starts (by simpa using hlist)
      exact ⟨target, init, hstarts, rfl⟩
  | .constDecl name type value span, s, s', known, _, h, _, hknows => by
    obtain ⟨hfree, hclean, rfl⟩ := clean_constDecl_iff.mp h
    refine (declareConstant_analyzes first hclean hfree.2.1 hknows).imp ?_
    rintro w ⟨hacc, hwarns⟩
    exact ⟨⟨hacc, trivial⟩, rfl, rfl, warnings_of_unreached (by rw [LowerContext.unreached])
      hwarns _⟩
  | .funcDecl .., _, _, _, _, h, _, _ | .event .., _, _, _, _, h, _, _ =>
    (not_clean_nested rfl rfl h).elim
  | .call callee args span, s, s', known, ⟨_, _⟩, h, _, hknows => by
    obtain ⟨_, marks, more, _, _, rfl, rfl⟩ := clean_call_iff.mp h
    refine (call_analyzes first h hknows).imp fun w hw => ?_
    exact ⟨⟨hw.1, trivial⟩, hw.2, rfl,
      warnings_of_unreached (by rw [LowerContext.unreached]) (warnings_marked (marks ++ more)) _⟩
  | .assign target op value span, s, s', known, ⟨_, _⟩, h, _, hknows => by
    obtain ⟨_, marks, more, _, _, heq, rfl⟩ := clean_assign_iff.mp h
    cases heq
    refine (assign_analyzes first h hknows).imp fun w hw => ?_
    exact ⟨⟨hw, trivial⟩, rfl, rfl,
      warnings_of_unreached (by rw [LowerContext.unreached]) (warnings_marked (marks ++ more)) _⟩
  | .branch condition thenBody elseBody span, s, s', known, ⟨_, _⟩, h, hwritten, hknows => by
    obtain ⟨hwrittenThen, hwrittenElse⟩ := (Bool.and_eq_true _ _).mp hwritten
    obtain ⟨marks, thenOut, s₁, elseOut, hmarks, hthenClean, helseClean, heq⟩ :=
      clean_branch_iff.mp h
    cases heq
    have hrun :=
      (leaves_expectType (fun _ h => h) .boolean .conditionMismatch).clean_iff.mpr
        ⟨marks, hmarks, rfl⟩
    have h₁ := inferred_analyzes first (inferred?_of_expects? hmarks) hknows
    have h₂ := statements_analyzes scope false thenBody hthenClean hwrittenThen
      (hknows.marked marks)
    have h₃ := statements_analyzes scope false elseBody helseClean hwrittenElse
      ((hknows.marked marks).after h₂)
    rw [Stmt.uses, follow_eq hrun.1, follow_eq hthenClean.1]
    refine ((h₁.and (h₂.and h₃)).imp ?_).weaken ?_
    · rintro w ⟨htyped, hthen, helse⟩
      refine ⟨⟨⟨htyped, hthen.accepted, helse.accepted⟩, trivial⟩, rfl,
        ⟨thenOut, elseOut, hthen.hoists, helse.hoists, rfl⟩, ?_⟩
      rw [helse.warnings, hthen.warnings, warnings_marked, LowerContext.unreached,
        AnalysisOptions.unreachableWarnings_append, append_assoc]
    · simp [Stmt.constantsAll, Stmt.constants]
  | .loop kind body span, s, s', known, ⟨_, _⟩, h, hwritten, hknows => by
    obtain ⟨marks, out, hmarks, hclean, heq⟩ := clean_loop_iff.mp h
    cases heq
    have hrun := (leaves_loopHeader fun _ h => h).clean_iff.mpr ⟨marks, hmarks, rfl⟩
    have h₁ := heads_analyzes first hmarks hknows
    have h₂ := statements_analyzes scope false body hclean hwritten (hknows.marked marks)
    rw [Stmt.uses, follow_eq hrun.1]
    refine ((h₁.and h₂).imp ?_).weaken ?_
    · rintro w ⟨htyped, hbody⟩
      refine ⟨⟨⟨htyped, hbody.accepted⟩, trivial⟩, rfl, ⟨out, hbody.hoists, rfl⟩, ?_⟩
      rw [hbody.warnings, warnings_marked, LowerContext.unreached]
    · simp [Stmt.constantsAll, Stmt.constants]

/-- Clean statements are accepted. -/
theorem statements_analyzes (scope : Scope) (stopped : Bool) :
    ∀ (stmts : List Stmt) {s s' : AnalysisState} {known : List String} {outs : List Stmt},
      Clean (statements scope stopped stmts) s outs s' → Stmt.writtenAll stmts →
      scope.Knows s known → Analyzes scope.catalog first s s' (Stmt.idsAll stmts)
      (Stmt.constantsAll outs) (Stmt.usesAll scope s stopped stmts) fun w =>
      FoundAll scope w known first stopped stmts s outs s'
  | [], s, _, _, _, h, _, _ => by
    obtain ⟨rfl, rfl⟩ := clean_pure_iff.mp h
    rw [Stmt.usesAll]
    refine .of_grows (.refl s) fun w => ⟨trivial, rfl, ?_⟩
    rw [LowerContext.unreachedAll]
    simp [AnalysisOptions.unreachableWarnings]
  | stmt :: rest, s, s', known, _, h, hwritten, hknows => by
    obtain ⟨hwrittenFirst, hwrittenRest⟩ := (Bool.and_eq_true _ _).mp hwritten
    obtain ⟨head, stops, s₁, more, hhead, hmore, rfl⟩ := exists_of_clean_statements_cons h
    have h₀ : Analyzes scope.catalog first s
        (s.warned scope.options (if stopped then [stmt] else [])) [] [] []
        fun _ => True := .of_grows ⟨.refl _, .refl _, le_rfl, fun _ _ _ => rfl⟩ fun _ => trivial
    have hknows₀ : scope.Knows (s.warned scope.options (if stopped then [stmt] else [])) known :=
      ⟨hknows.function, hknows.constants⟩
    have h₁ := statement_analyzes scope stmt hhead hwrittenFirst hknows₀
    have h₂ := statements_analyzes scope (stopped || stops) rest hmore hwrittenRest
      (hknows₀.after h₁)
    rw [Stmt.usesAll, follow_eq (run_warnIf scope stopped stmt s), follow_eq hhead.1,
      Stmt.constantsAll_append]
    refine (h₀.and (h₁.and h₂)).imp ?_
    rintro w ⟨_, hfound, hmoreFound⟩
    refine ⟨Stmt.acceptedAll_append.mpr ⟨hfound.accepted, hmoreFound.accepted⟩,
      ⟨head, more, hfound.hoists, hmoreFound.hoists, rfl⟩, ?_⟩
    have hstops : stops = (w.context none).stops stmt := hfound.stops
    rw [hmoreFound.warnings, hfound.warnings, hstops, LowerContext.unreachedAll,
      AnalysisOptions.unreachableWarnings_append, AnalysisOptions.unreachableWarnings_append,
      append_assoc]
    exact append_assoc _ _ _

end

end Analyzer

end BlockScript
