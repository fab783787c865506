import BlockScript.Proofs.FixedPoint

/-!
# Unique names and their uses

A place of a program uses what is declared under a name if it reads the name where no parameter
hides it, if it combines the value of a variable with another one, or if it calls a function or an
event. Where the analysis of a statement reports nothing, the marks of use that it leaves are those
of such places.
-/

namespace BlockScript

open Option (bind_eq_some_iff map_eq_some_iff)

section

open AnalysisState List

variable {kind : DeclarationKind} {name : String} {span : Span} {used : Bool} {marks : List Mark}
  {decl : Declaration} {v : View}

/-- A place of a program that refers to a name. -/
inductive Usage where
  /-- The name stands in an expression. -/
  | read (name : String)
  /-- The name is assigned what its value so far is combined to. -/
  | combine (name : String)
  /-- A statement calls the name. -/
  | call (name : String)
  deriving DecidableEq

/-- Whether a place uses what is declared as a kind under a name. -/
def Usage.isOf (kind : DeclarationKind) (name : String) : Usage → Bool
  | .read other => kind.isValue && decide (other = name)
  | .combine other => decide (kind = .variable) && decide (other = name)
  | .call other => !kind.isValue && decide (other = name)

/-- The places where expressions name what no parameter hides. -/
def Usage.reads (hidden : List String) (names : List (Nat × String)) : List Usage :=
  (names.filter (·.2 ∉ hidden)).map (.read ·.2)

private theorem Usage.reads_append (hidden : List String) (names more : List (Nat × String)) :
    reads hidden (names ++ more) = reads hidden names ++ reads hidden more := by
  simp [reads]

mutual

/-- The places in a statement that refer to names. -/
def Stmt.usages (hidden : List String) : Stmt → List Usage
  | .varDecl _ _ value _ _ => Usage.reads hidden (value.toList.flatMap Expr.names)
  | .constDecl _ _ value _ => Usage.reads hidden value.names
  | .funcDecl _ params body _ _ => usagesAll (params.map (·.name) ++ hidden) body
  | .event _ _ param body _ _ => Usage.reads hidden (param.toList.flatMap Expr.names) ++
    usagesAll hidden body
  | .call callee args _ => Usage.reads hidden (Expr.namesAll args) ++ [.call callee]
  | .assign target op value _ =>
    Usage.reads hidden value.names ++ if op = .set then [] else [.combine target]
  | .branch condition thenBody elseBody _ =>
    Usage.reads hidden condition.names ++ (usagesAll hidden thenBody ++ usagesAll hidden elseBody)
  | .loop kind body _ => Usage.reads hidden kind.names ++ usagesAll hidden body

/-- The places in statements that refer to names. -/
def Stmt.usagesAll (hidden : List String) : List Stmt → List Usage
  | [] => []
  | stmt :: rest => stmt.usages hidden ++ usagesAll hidden rest

end

private theorem Usage.any_reads (hidden : List String) (names : List (Nat × String)) :
    (reads hidden names).any (isOf kind name) =
      (kind.isValue && decide (name ∉ hidden) && names.any (·.2 = name)) := by
  rw [Bool.eq_iff_iff]
  simp only [reads, any_map, any_filter, any_eq_true, Function.comp_apply, isOf, Bool.and_eq_true,
    decide_eq_true_eq]
  refine ⟨?_, ?_⟩
  · rintro ⟨p, hp, hhidden, hvalue, rfl⟩
    exact ⟨⟨hvalue, hhidden⟩, p, hp, rfl⟩
  · rintro ⟨⟨hvalue, hhidden⟩, p, hp, rfl⟩
    exact ⟨p, hp, hhidden, hvalue, rfl⟩

namespace Definitions

variable {d d' : Definitions}

private theorem row?_useAs (d : Definitions) (kind kind' : DeclarationKind) (name name' : String) :
    (d.useAs kind' name').row? kind name =
      (d.row? kind name).map fun p => (p.1, p.2 || decide (kind' = kind ∧ name' = name)) := by
  cases kind <;> cases kind' <;>
    simp [row?, useAs, useVariable, useList, useConstant, useFunction, useEvent, Table.get?_modify,
      Function.comp_def]
  all_goals split <;> simp_all [Function.comp_def]

/-- Whether a name is declared as one kind, at a place, and marked as used or not. -/
def Holds (kind : DeclarationKind) (name : String) (span : Span) (used : Bool) (d : Definitions) :
    Prop :=
  ∀ kind', d.row? kind' name = if kind' = kind then some (span, used) else none

private theorem row?_eq_none_iff : d.row? kind name = none ↔ d.lookup kind name = none := by
  cases kind <;> simp [row?, lookup]

private theorem Inserts.holds (h : d.Inserts kind name decl span d') (hfresh : d.Undeclared name) :
    d'.Holds kind name span false := by
  intro kind'
  rw [h.enters, row?_eq_none_iff.mpr (hfresh kind')]
  simp

namespace Holds

variable {other : String}

private theorem lookup_ne_none_iff (h : d.Holds kind name span used) {kind' : DeclarationKind} :
    d.lookup kind' name ≠ none ↔ kind' = kind := by
  rw [ne_eq, ← row?_eq_none_iff, h kind']
  split <;> simp_all

private theorem ne_of_undeclared (h : d.Holds kind name span used) (hfresh : d.Undeclared other) :
    other ≠ name := by
  rintro rfl
  exact h.lookup_ne_none_iff.mpr rfl (hfresh kind)

private theorem inserts {kind' : DeclarationKind} {span' : Span} (h : d.Holds kind name span used)
    (hne : other ≠ name) (hinserts : d.Inserts kind' other decl span' d') :
    d'.Holds kind name span used := by
  intro kind''
  rw [hinserts.enters, if_neg fun h => hne h.2]
  exact h kind''

private theorem entity? (h : d.Holds kind name span used) :
    (d.entity? name).bind Entity.kind? = if kind.isValue then some kind else none := by
  have hlook (kind' : DeclarationKind) (hne : kind' ≠ kind) : d.lookup kind' name = none :=
    not_not.mp fun hsome => hne (h.lookup_ne_none_iff.mp hsome)
  obtain ⟨decl, hdecl⟩ := Option.ne_none_iff_exists'.mp (h.lookup_ne_none_iff.mpr rfl)
  unfold Definitions.entity?
  cases kind with
  | function | event =>
    rw [hlook .variable nofun, hlook .list nofun, hlook .constant nofun]
    rfl
  | «variable» =>
    rw [hdecl]
    obtain ⟨_, _, rfl⟩ := map_eq_some_iff.mp hdecl
    rfl
  | list =>
    rw [hlook .variable nofun, hdecl]
    obtain ⟨_, _, rfl⟩ := map_eq_some_iff.mp hdecl
    rfl
  | constant =>
    rw [hlook .variable nofun, hlook .list nofun, hdecl]
    obtain ⟨_, _, rfl⟩ := map_eq_some_iff.mp hdecl
    rfl

end Holds

end Definitions

private theorem Definitions.Holds.marked {s : AnalysisState} (h : s.defs.Holds kind name span used)
    (marks : List Mark) :
    (s.marked marks).defs.Holds kind name span (used || marks.any (Mark.isUse kind name)) := by
  induction marks generalizing s used with
  | nil => simpa using h
  | cons m rest ih =>
    rw [any_cons, ← Bool.or_assoc]
    refine ih ?_
    cases m with
    | use kind' name' =>
      intro kind''
      change (s.defs.useAs kind' name').row? kind'' name = _
      rw [row?_useAs, h kind'']
      split
      · rename_i heq
        simp [heq, Mark.isUse]
      · rfl
    | record id type =>
      rw [Mark.isUse, Bool.or_false]
      exact h

namespace Analyzer

variable {scope : Scope} {s s' s₁ s₂ : AnalysisState} {usages more : List Usage}
  {hidden : List String} {names : List (Nat × String)}

/-- Whether the marks of use that are made between two states are those of some places. -/
def Accounts (usages : List Usage) (s s' : AnalysisState) : Prop :=
  ∀ kind name span used, s.defs.Holds kind name span used →
    s'.defs.Holds kind name span (used || usages.any (Usage.isOf kind name))

private theorem Accounts.of_eq (h : s'.defs = s.defs) : Accounts [] s s' := by
  intro kind name span used hholds
  rw [h]
  simpa using hholds

private theorem Accounts.append (h : Accounts usages s s₁) (h' : Accounts more s₁ s₂) :
    Accounts (usages ++ more) s s₂ := by
  intro kind name span used hholds
  rw [any_append, ← Bool.or_assoc]
  exact h' _ _ _ _ (h _ _ _ _ hholds)

private theorem Accounts.of_marks (h : ∀ {kind name span used}, s.defs.Holds kind name span used →
      marks.any (Mark.isUse kind name) = usages.any (Usage.isOf kind name)) :
    Accounts usages s (s.marked marks) := by
  intro kind name span used hholds
  rw [← h hholds]
  exact hholds.marked marks

/-- Whether the parameters of the function around have just these names. -/
def Hides (scope : Scope) (s : AnalysisState) (hidden : List String) : Prop :=
  ∀ name, name ∈ hidden ↔ scope.param? s.defs name ≠ none

private theorem Hides.nil (hfun : scope.function = none) : Hides scope s [] :=
  fun name => by simp [Scope.param?, Scope.function?, hfun]

private theorem Hides.any_isUse (h : Hides scope s hidden)
    (hholds : s.defs.Holds kind name span used) (hdeclaring : scope.declaring ≠ some name)
    (hresolves : (scope.view s).Resolves names marks) :
    marks.any (Mark.isUse kind name) = (Usage.reads hidden names).any (Usage.isOf kind name) := by
  rw [hresolves.uses, Usage.any_reads, Scope.entity?_view, Scope.entity?]
  congr 1
  have hent := hholds.entity?
  cases hparam : scope.param? s.defs name with
  | some p =>
    have hname : name ∈ hidden := (h name).mpr (by simp [hparam])
    simp [hname, Entity.kind?]
  | none =>
    have hname : name ∉ hidden := fun hmem => (h name).mp hmem hparam
    rw [if_neg hdeclaring]
    cases hd : s.defs.entity? name with
    | some entity =>
      rw [hd, Option.bind_some] at hent
      cases kind <;> simp_all [DeclarationKind.isValue]
    | none =>
      rw [hd] at hent
      cases hvalue : kind.isValue with
      | true => simp [hvalue] at hent
      | false =>
        dsimp only
        split
        · simp
        · cases hrep : Entity.reporter? scope.catalog name with
          | none => simp
          | some entity =>
            obtain ⟨_, _, hsome⟩ := bind_eq_some_iff.mp hrep
            obtain ⟨_, _, rfl⟩ := map_eq_some_iff.mp hsome
            simp [Entity.kind?]

private theorem Hides.accounts (h : Hides scope s hidden) (hdeclaring : scope.declaring = none)
    (hresolves : (scope.view s).Resolves names marks) :
    Accounts (Usage.reads hidden names) s (s.marked marks) :=
  .of_marks fun hholds => h.any_isUse hholds (by simp [hdeclaring]) hresolves

private theorem any_isUse_of_calls? {callee : String} {args : List Expr} {types : List DataType}
    {stops : Bool} (h : (scope.view s).calls? callee args types = some (stops, marks))
    (hholds : s.defs.Holds kind name span used) :
    marks.any (Mark.isUse kind name) = [Usage.call callee].any (Usage.isOf kind name) := by
  have hcalled {kind' : DeclarationKind} (hkind : kind'.isValue = false)
      (hsome : (scope.view s).lookup kind' callee ≠ none) :
      [Mark.use kind' callee].any (Mark.isUse kind name) = [Usage.call callee].any
      (Usage.isOf kind name) := by
    by_cases hname : callee = name
    · subst hname
      obtain rfl := hholds.lookup_ne_none_iff.mp hsome
      simp [Mark.isUse, Usage.isOf, hkind]
    · simp [Mark.isUse, Usage.isOf, hname]
  unfold View.calls? at h
  split at h
  · rename_i hfun
    split at h <;> cases h
    exact hcalled rfl (by simp [hfun])
  · rename_i hfun
    split at h
    · rename_i hevent
      split at h <;> cases h
      exact hcalled rfl (Option.isSome_iff_ne_none.mp hevent)
    · rename_i hevent
      obtain ⟨b, _, h⟩ := bind_eq_some_iff.mp h
      obtain ⟨signature, _, h⟩ := bind_eq_some_iff.mp h
      split at h <;> cases h
      have hne : kind.isValue = false → callee ≠ name := by
        rintro hkind rfl
        have hsome := hholds.lookup_ne_none_iff.mpr rfl
        cases kind with
        | function =>
          obtain ⟨decl, hdecl⟩ := Option.ne_none_iff_exists'.mp hsome
          obtain ⟨f, _, rfl⟩ := map_eq_some_iff.mp hdecl
          exact hfun _ hdecl
        | event => exact hevent (Option.isSome_iff_ne_none.mpr hsome)
        | _ => cases hkind
      simpa [Usage.isOf] using hne

private theorem any_isUse_of_assigns? {target : String} {op : AssignOp} {found : DataType}
    (h : (scope.view s).assigns? target op found = some marks)
    (hholds : s.defs.Holds kind name span used) : marks.any (Mark.isUse kind name) =
      (if op = .set then [] else [Usage.combine target]).any (Usage.isOf kind name) := by
  unfold View.assigns? at h
  split at h
  · cases h
  split at h
  · split at h <;> cases h
    split <;> simp [Mark.isUse, Usage.isOf, eq_comm]
  · rename_i hvar
    have hne : kind = .variable → target ≠ name := by
      rintro rfl rfl
      obtain ⟨decl, hdecl⟩ := Option.ne_none_iff_exists'.mp (hholds.lookup_ne_none_iff.mpr rfl)
      obtain ⟨f, _, rfl⟩ := map_eq_some_iff.mp hdecl
      exact hvar _ hdecl
    split at h
    · cases h
    obtain ⟨property, _, h⟩ := bind_eq_some_iff.mp h
    split at h <;> cases h
    split
    · rfl
    · simpa [Usage.isOf] using hne

private theorem resolves_of_heads? :
    ∀ {kind : LoopKind}, v.heads? kind = some ((), marks) → v.Resolves kind.names marks
  | .forever, h => by
    cases h
    exact .nil
  | .times _, h | .until _, h => Expr.resolves (inferred?_of_expects? h)

private theorem resolves_of_begins? {kind : EventKind} {param : Option Expr}
    (hwritten : (kind != .custom || param.isNone))
    (h : v.begins? kind name param = some ((), marks)) :
    v.Resolves (param.toList.flatMap Expr.names) marks := by
  unfold View.begins? at h
  split at h
  · rename_i hkind
    cases h
    have hparam : param = none := by simpa [hkind] using hwritten
    rw [hparam]
    exact .nil
  · obtain ⟨signature, _, h⟩ := bind_eq_some_iff.mp h
    unfold View.handled? at h
    split at h
    · cases h
      exact .nil
    · obtain ⟨p, hexpects, h⟩ := bind_eq_some_iff.mp h
      split at h <;> cases h
      simpa using Expr.resolves (inferred?_of_expects? hexpects)
    · cases h

private theorem resolves_of_listed? {type element : Option DataType} {value : Option Expr}
    (h : v.listed? type value = some (element, marks)) :
    v.Resolves (value.toList.flatMap Expr.names) marks := by
  unfold View.listed? at h
  split at h
  · cases h
  cases value with
  | none =>
    cases h
    exact .nil
  | some e =>
    obtain ⟨items, hitems, h⟩ := bind_eq_some_iff.mp h
    obtain ⟨p, helements, h⟩ := bind_eq_some_iff.mp h
    obtain ⟨types, htypes⟩ := exists_inferredAll?_of_elements? helements
    have hresolves := Expr.resolvesAll htypes
    rw [Option.toList_some, flatMap_singleton, names_of_items? e hitems]
    split at h
    · cases h
      rw [append_cons]
      exact (hresolves.record _ _).record _ _
    · split at h <;> cases h
      exact hresolves

end Analyzer

end

/-!
## Unique names

No two declarations of a program have the same name, and none in the body of a function has the name
of a parameter: where the analysis reports nothing, each declaration finds its name free and takes
it, and a name that is taken stays so.
-/

variable {item : Stmt} {items assigns : List Stmt} {name other : String} {marks : List Mark}
  {staged : Staged} {v : View}

open AnalysisState List

mutual

/-- The names that a statement declares, with those in its bodies. -/
def Stmt.declared : Stmt → List String
  | .varDecl name _ _ _ _ | .constDecl name _ _ _ => [name]
  | .funcDecl name _ body _ _ => name :: declaredAll body
  | .event kind name _ body _ _ => (if kind = .custom then [name] else []) ++ declaredAll body
  | .call .. | .assign .. => []
  | .branch _ thenBody elseBody _ => declaredAll thenBody ++ declaredAll elseBody
  | .loop _ body _ => declaredAll body

/-- The names that statements declare. -/
def Stmt.declaredAll : List Stmt → List String
  | [] => []
  | stmt :: rest => stmt.declared ++ declaredAll rest

end

/-- What an item that declares a value declares. -/
def Stmt.valueKind : Stmt → DeclarationKind
  | .varDecl _ type value _ _ => if declaresList type value then .list else .variable
  | _ => .constant

/-- Whether the body of a function declares the name of a parameter of the function. -/
def Stmt.Shadows : Stmt → Prop
  | .funcDecl _ params body _ _ => ∃ param ∈ params, param.name ∈ declaredAll body
  | _ => False

/-- The names that are declared in the body of an item. -/
def Stmt.inner : Stmt → List String
  | .funcDecl _ _ body _ _ | .event _ _ _ body _ _ => declaredAll body
  | _ => []

private theorem Stmt.declared_of_isItem (h : item.isItem) :
    item.declared = item.ownName?.toList ++ item.inner := by
  cases item with
  | varDecl | constDecl | funcDecl => rfl
  | event kind => cases kind <;> rfl
  | _ => cases h

/-- Names of items and in items. -/
theorem Stmt.declaredAll_perm (h : ∀ item ∈ items, item.isItem) :
    (declaredAll items).Perm (items.filterMap ownName? ++ items.flatMap inner) := by
  induction items with
  | nil => exact .refl _
  | cons item rest ih =>
    obtain ⟨hitem, hrest⟩ := forall_mem_cons.mp h
    have hfirst :
        (item :: rest).filterMap ownName? = item.ownName?.toList ++ rest.filterMap ownName? := by
      rw [filterMap_cons]
      cases item.ownName? <;> rfl
    rw [declaredAll, declared_of_isItem hitem, hfirst, flatMap_cons, append_assoc, append_assoc]
    refine List.Perm.append_left _ ?_
    calc (item.inner ++ declaredAll rest).Perm
          (item.inner ++ (rest.filterMap ownName? ++ rest.flatMap inner)) :=
        (ih hrest).append_left _
      _ |>.Perm (rest.filterMap ownName? ++ (item.inner ++ rest.flatMap inner)) := by
        rw [← append_assoc, ← append_assoc]
        exact perm_append_comm.append_right _

/-- The names in the initializer of an item. -/
def Stmt.valueNames : Stmt → List (Nat × String)
  | .varDecl _ _ value _ _ => value.toList.flatMap Expr.names
  | .constDecl _ _ value _ => value.names
  | _ => []

/-- The places in the body of an item, or in the parameter of an event, that refer to names. -/
def Stmt.bodyUsages : Stmt → List Usage
  | .funcDecl _ params body _ _ => usagesAll (params.map (·.name)) body
  | .event _ _ param body _ _ => Usage.reads [] (param.toList.flatMap Expr.names) ++
    usagesAll [] body
  | _ => []

/-- What an item declares on the outermost level. -/
def Stmt.declaration? (item : Stmt) : Option (DeclarationKind × String) :=
  item.introduced? <|> item.valueName?.map (item.valueKind, ·)

private theorem Stmt.any_usagesAll {p : Usage → Bool} (h : ∀ item ∈ items, item.isItem) :
    (usagesAll [] items).any p =
      ((Usage.reads [] (items.flatMap valueNames)).any p || (items.flatMap bodyUsages).any p) := by
  induction items with
  | nil => rfl
  | cons item rest ih =>
    obtain ⟨hitem, hrest⟩ := forall_mem_cons.mp h
    have hfirst : item.usages [] = Usage.reads [] item.valueNames ++ item.bodyUsages := by
      cases item with
      | varDecl | constDecl => exact (append_nil _).symm
      | funcDecl => simp [usages, valueNames, bodyUsages, Usage.reads]
      | event => rfl
      | _ => cases hitem
    rw [usagesAll, hfirst, flatMap_cons, Usage.reads_append, flatMap_cons]
    simp only [any_append, ih hrest]
    ac_rfl

private theorem Stmt.valueNames_eq_nil (h : item.valueName? = none) : item.valueNames = [] := by
  cases item with
  | varDecl | constDecl => cases h
  | _ => rfl

private theorem Stmt.ownName?_of_introduced? {kind : DeclarationKind}
    (h : item.introduced? = some (kind, name)) : item.ownName? = some name := by
  unfold introduced? at h
  split at h <;> cases h <;> rfl

namespace Definitions.Adds

variable {kind : DeclarationKind} {name other : String} {decl : Declaration} {d d' : Definitions}

/-- What is added is declared. -/
theorem not_undeclared (h : Adds kind name decl d d') : ¬ d'.Undeclared name := by
  intro hnew
  have hlook := hnew kind
  rw [h, if_pos ⟨rfl, rfl⟩] at hlook
  cases hlook

/-- What is free was free before. -/
theorem undeclared_of (h : Adds kind name decl d d') (hother : d'.Undeclared other) :
    d.Undeclared other := by
  intro kind'
  have hlook := hother kind'
  rw [h] at hlook
  split at hlook
  · cases hlook
  · exact hlook

end Definitions.Adds

/-- Whether a name is neither declared nor announced. -/
def AnalysisState.Unclaimed (s : AnalysisState) (name : String) : Prop :=
  s.defs.Undeclared name ∧ s.pending.get? name = none

namespace Analyzer

variable {scope : Scope} {s s' s₁ s₂ : AnalysisState} {names more hidden : List String}
  {usages uses : List Usage}

/-- Whether names are taken between two states, one after the other: each of them is free before
it is taken. What was taken before stays so. The marks of use that are made are those of some
places. -/
structure Takes (scope : Scope) (names : List String) (usages : List Usage) (s s' : AnalysisState) :
    Prop where
  nodup : names.Nodup
  free : ∀ name ∈ names, Free scope name s
  taken : ∀ name ∈ names, ¬ s'.Unclaimed name
  back : ∀ name, s'.Unclaimed name → s.Unclaimed name
  params : scope.param? s'.defs = scope.param? s.defs
  accounts : Accounts usages s s'

private theorem Hides.after (h : Hides scope s hidden) (htakes : Takes scope names usages s s') :
    Hides scope s' hidden := by
  unfold Hides
  rwa [htakes.params]

namespace Takes

private theorem append (h : Takes scope names usages s s₁) (h' : Takes scope more uses s₁ s₂) :
    Takes scope (names ++ more) (usages ++ uses) s s₂ where
  nodup := by
    refine h.nodup.append h'.nodup fun name hname hmore => ?_
    exact h.taken name hname (h'.free name hmore).2
  free := by
    refine forall_mem_append.mpr ⟨h.free, fun name hname => ?_⟩
    obtain ⟨hparam, hunclaimed⟩ := h'.free name hname
    rw [h.params] at hparam
    exact ⟨hparam, h.back name hunclaimed⟩
  taken := forall_mem_append.mpr
    ⟨fun name hname hunclaimed => h.taken name hname (h'.back name hunclaimed), h'.taken⟩
  back name hname := h.back name (h'.back name hname)
  params := h'.params.trans h.params
  accounts := h.accounts.append h'.accounts

private theorem after (h : Takes scope [] usages s s₁) (h' : Takes scope names uses s₁ s₂) :
    Takes scope names (usages ++ uses) s s₂ := h.append h'

private theorem of_lookup_eq (hlook : s'.defs.lookup = s.defs.lookup)
    (hpend : s'.pending = s.pending) (haccounts : Accounts usages s s') :
    Takes scope [] usages s s' where
  nodup := nodup_nil
  free := nofun
  taken := nofun
  back name hname := by
    unfold Unclaimed Definitions.Undeclared at hname ⊢
    rwa [hlook, hpend] at hname
  params := funext fun name => Definitions.param?_congr (fun _ _ => by rw [hlook]) name
  accounts := haccounts

private theorem of_marked (h : Accounts usages s (s.marked marks)) :
    Takes scope [] usages s (s.marked marks) :=
  .of_lookup_eq (lookup_marked marks) (pending_marked marks) h

private theorem of_same (h : s.Same s') : Takes scope [] [] s s' :=
  .of_lookup_eq (by rw [h.defs]) h.pending (.of_eq h.defs)

private theorem refl (scope : Scope) (s : AnalysisState) :
    Takes scope [] [] s s := .of_same (.refl s)

private theorem of_adds {kind : DeclarationKind} {decl : Declaration}
    (hadds : s.defs.Adds kind name decl s'.defs) (hpend : s'.pending = s.pending)
    (hparams : scope.param? s'.defs = scope.param? s.defs) (hfree : Free scope name s)
    (haccounts : Accounts usages s s') : Takes scope [name] usages s s' where
  nodup := nodup_singleton name
  free := forall_mem_singleton.mpr hfree
  taken := forall_mem_singleton.mpr fun h => hadds.not_undeclared h.1
  back _ h := ⟨hadds.undeclared_of h.1, hpend ▸ h.2⟩
  params := hparams
  accounts := haccounts

end Takes

/-- Whether a variable, a list or a constant is declared between two states, at a place, and nothing
else is. Its initializer has some names, which are marked before. -/
structure AddsValue (scope : Scope) (kind : DeclarationKind) (name : String) (span : Span)
    (names : List (Nat × String)) (s s' : AnalysisState) : Prop where
  isValue : kind.isValue = true
  pending : s'.pending = s.pending
  inserts : ∃ marks decl, ({ scope with declaring := some name }.view s).Resolves names marks ∧
    (s.marked marks).defs.Inserts kind name decl span s'.defs

namespace AddsValue

variable {kind : DeclarationKind} {name : String} {span : Span} {names : List (Nat × String)}

variable (h : AddsValue scope kind name span names s s')
include h

/-- A value is added. -/
theorem adds : ∃ decl, s.defs.Adds kind name decl s'.defs := by
  obtain ⟨marks, decl, _, hinserts⟩ := h.inserts
  have hadds := hinserts.adds
  unfold Definitions.Adds at hadds
  rw [lookup_marked] at hadds
  exact ⟨decl, hadds⟩

private theorem param?_eq : scope.param? s'.defs = scope.param? s.defs := by
  obtain ⟨decl, hadds⟩ := h.adds
  have hkind := h.isValue
  funext other
  refine Definitions.param?_congr (fun function _ => ?_) other
  rw [hadds, if_neg]
  rintro ⟨rfl, _⟩
  cases hkind

private theorem accounts (hfresh : s.defs.Undeclared name) (hhides : Hides scope s hidden) :
    Accounts (Usage.reads hidden names) s s' ∧ s'.defs.Holds kind name span false := by
  obtain ⟨marks, _, hresolves, hinserts⟩ := h.inserts
  have hhides' : Hides { scope with declaring := some name } s hidden := hhides
  refine ⟨fun kind' name' span' used' hholds => ?_, ?_⟩
  · have hne := hholds.ne_of_undeclared hfresh
    rw [← hhides'.any_isUse hholds (by simpa using hne) hresolves]
    exact (hholds.marked marks).inserts hne hinserts
  · exact hinserts.holds (hfresh.of_lookup_eq (lookup_marked marks))

private theorem takes (hfree : Free scope name s) (hhides : Hides scope s hidden) :
    Takes scope [name] (Usage.reads hidden names) s s' :=
  have ⟨_, hadds⟩ := h.adds
  .of_adds hadds h.pending h.param?_eq hfree (h.accounts hfree.2.1 hhides).1

/-- On the outermost level, what an initializer reads is declared already, or it is neither its own
variable nor announced, and has the name of a readable property. -/
theorem known (hfun : scope.function = none) {p : Nat × String} (hp : p ∈ names) :
    (∃ kind', s.defs.lookup kind' p.2 ≠ none) ∨
      p.2 ≠ name ∧ s.pending.get? p.2 = none ∧ (scope.catalog.reporter? p.2).isSome := by
  obtain ⟨_, _, hresolves, _⟩ := h.inserts
  have hent := hresolves.known p hp
  have hparam : { scope with declaring := some name }.param? s.defs p.2 = none :=
    Scope.param?_eq_none hfun _ _
  rw [Scope.entity?_view, Scope.entity?, hparam] at hent
  dsimp only at hent
  split at hent
  · exact absurd rfl hent
  rename_i hdeclaring
  split at hent
  · rename_i hsome
    obtain ⟨kind', decl, hlook, _⟩ := Definitions.exists_lookup_of_entity? hsome
    exact .inl ⟨kind', by simp [hlook]⟩
  split at hent
  · exact absurd rfl hent
  rename_i hpend
  refine .inr ⟨fun heq => hdeclaring (heq ▸ rfl), by simpa [Table.contains] using hpend, ?_⟩
  cases hrep : scope.catalog.reporter? p.2 with
  | some => rfl
  | none => simp [Entity.reporter?, hrep] at hent

private theorem any_reads (hfun : scope.function = none) (hfresh : s.defs.Undeclared other)
    (hother : other = name ∨ s.pending.get? other ≠ none) (kind' : DeclarationKind) :
    (Usage.reads [] names).any (Usage.isOf kind' other) = false := by
  have hnames : names.any (·.2 = other) = false := by
    rw [any_eq_false]
    rintro p hp hname
    obtain rfl := of_decide_eq_true hname
    obtain ⟨kind', hkind'⟩ | ⟨hne, hpend, _⟩ := h.known hfun hp
    · exact hkind' (hfresh kind')
    · exact hother.elim hne (absurd hpend)
  rw [Usage.any_reads, hnames, Bool.and_false]

end AddsValue

private theorem AddsValue.takes_nothing {kind : DeclarationKind} {span : Span}
    {names : List (Nat × String)} (h : AddsValue scope kind name span names (s.unannounce name) s')
    (hfresh : s.defs.Undeclared name) (hhides : Hides scope s hidden) :
    Takes scope [] (Usage.reads hidden names) s s' where
  nodup := nodup_nil
  free := nofun
  taken := nofun
  back other hother := by
    obtain ⟨_, hadds⟩ := h.adds
    have hpend := hother.2
    have hne : name ≠ other := by
      rintro rfl
      exact hadds.not_undeclared hother.1
    rw [h.pending, unannounce, Table.get?_erase, if_neg hne] at hpend
    exact ⟨hadds.undeclared_of hother.1, hpend⟩
  params := h.param?_eq
  accounts := (h.accounts hfresh hhides).1

private theorem elements?_ne_none {known found : Option DataType} {items : List Expr}
    (h : v.elements? known items = some (found, marks)) (hknown : known ≠ none ∨ items ≠ []) :
    found ≠ none := by
  induction items generalizing known marks with
  | nil =>
    cases h
    exact hknown.resolve_right fun h => h rfl
  | cons item rest ih =>
    obtain ⟨⟨known', first⟩, hfirst, hrest⟩ := bind_eq_some_iff.mp h
    obtain ⟨⟨_, more⟩, hmore, heq⟩ := map_eq_some_iff.mp hrest
    cases heq
    refine ih hmore (Or.inl ?_)
    obtain ⟨_, _, hitem⟩ := bind_eq_some_iff.mp hfirst
    cases known with
    | none | some expected =>
      dsimp only at hitem
      split at hitem <;> cases hitem
      exact Option.some_ne_none _

private theorem listed?_ne_none {type element : Option DataType} {value : Option Expr}
    (hlist : ((value.bind Expr.items?).isSome || type.any DataType.isList))
    (h : v.listed? type value = some (element, marks)) : element ≠ none := by
  unfold View.listed? at h
  split at h
  · cases h
  cases value with
  | none =>
    cases h
    have htype : type.any DataType.isList = true := by simpa using hlist
    obtain ⟨type, rfl, hisList⟩ := (Option.any_eq_true ..).mp htype
    cases type <;> simp_all [DataType.isList, DataType.element?]
  | some value =>
    obtain ⟨items, _, hitems⟩ := bind_eq_some_iff.mp h
    obtain ⟨⟨found, first⟩, hfound, hitems⟩ := bind_eq_some_iff.mp hitems
    dsimp only at hitems
    split at hitems
    · rename_i hlistOf
      cases hitems
      rintro rfl
      cases hlistOf
    · split at hitems
      · cases hitems
      · rename_i hempty
        cases hitems
        refine elements?_ne_none hfound (Or.inr ?_)
        rintro rfl
        exact hempty rfl

section Declarations

variable {name : String} {type : Option DataType} {span : Span}

private theorem addsValue_of_clean_declareVariable {value : Option Expr}
    {result : Stmt × Option Stmt}
    (h : Clean (declareVariable scope name type value false span) s result s') :
    AddsValue scope (if Stmt.declaresList type value then .list else .variable) name span
        (value.toList.flatMap Expr.names) s s' ∧
      ((result.2 = none ∧ Stmt.declaresList type value) ∨
        ∃ init, result.2 = some (.assign name .set init span) ∧
        init.names = value.toList.flatMap Expr.names) := by
  cases hlist : Stmt.declaresList type value with
  | true =>
    obtain ⟨element, marks, hlisted, rfl, rfl⟩ := (clean_declareVariable_list_iff hlist).mp h
    obtain ⟨element, rfl⟩ := Option.ne_none_iff_exists'.mp (listed?_ne_none hlist hlisted)
    exact ⟨⟨rfl, pending_marked marks, marks, _, resolves_of_listed? hlisted,
      Definitions.inserts_addList _ name element span⟩, .inl ⟨rfl, rfl⟩⟩
  | false =>
    obtain ⟨init, target, found, marks, next, rfl, hinit, _, _, _, hstarts, _, rfl⟩ :=
      exists_of_clean_declareVariable hlist h
    have hnames : init.names = value.toList.flatMap Expr.names := by
      cases value with
      | none =>
        obtain ⟨_, _, _, rfl⟩ := hstarts
        rfl
      | some value =>
        obtain ⟨rfl, _⟩ := hstarts
        simp
    have hsame : Same { s with nextId := next } s := ⟨rfl, rfl, fun _ => rfl⟩
    refine ⟨⟨rfl, pending_marked marks, marks, ?_⟩, .inr ⟨init, rfl, hnames⟩⟩
    rw [(hsame.marked marks).defs]
    exact ⟨_, hnames ▸ Expr.resolves hinit, Definitions.inserts_addVariable _ name target span⟩

private theorem addsValue_of_clean_declareConstant {value : Expr}
    (h : Clean (declareConstant scope name type value span) s () s') :
    AddsValue scope .constant name span value.names s s' := by
  obtain ⟨found, marks, hfound, _, _, rfl⟩ := clean_declareConstant_iff.mp h
  exact ⟨rfl, pending_marked marks, marks, _, Expr.resolves hfound,
    Definitions.inserts_addConstant _ name found value.value? span⟩

end Declarations

mutual

private theorem takes_statement (hdeclaring : scope.declaring = none) :
    ∀ (stmt : Stmt) {s s' : AnalysisState} {outs : List Stmt} {stops : Bool}, stmt.written →
      Hides scope s hidden → Clean (statement scope stmt) s (outs, stops) s' →
        Takes scope stmt.declared (stmt.usages hidden) s s'
  | .varDecl _ _ _ hoisted _, _, _, _, _, hwritten, hhides, h => by
    obtain ⟨hfree, _, hclean, _⟩ := clean_varDecl_iff.mp h
    cases hoisted with
    | true => cases hwritten
    | false => exact (addsValue_of_clean_declareVariable hclean).1.takes hfree hhides
  | .constDecl .., _, _, _, _, _, hhides, h => by
    obtain ⟨hfree, hclean, _⟩ := clean_constDecl_iff.mp h
    exact (addsValue_of_clean_declareConstant hclean).takes hfree hhides
  | .funcDecl .., _, _, _, _, _, _, h => absurd h (not_clean_nested rfl rfl)
  | .event .., _, _, _, _, _, _, h => absurd h (not_clean_nested rfl rfl)
  | .call .., _, _, _, _, _, hhides, h => by
    obtain ⟨_, marks, more, htypes, hcalls, _, rfl⟩ := clean_call_iff.mp h
    refine .of_marked
      (marked_append marks more ▸ (hhides.accounts hdeclaring (Expr.resolvesAll htypes)).append ?_)
    exact .of_marks (any_isUse_of_calls? (by rwa [Scope.view_marked]))
  | .assign .., _, _, _, _, _, hhides, h => by
    obtain ⟨_, marks, more, hvalue, hassigns, _, rfl⟩ := clean_assign_iff.mp h
    refine .of_marked
      (marked_append marks more ▸ (hhides.accounts hdeclaring (Expr.resolves hvalue)).append ?_)
    exact .of_marks (any_isUse_of_assigns? (by rwa [Scope.view_marked]))
  | .branch _ thenBody elseBody _, _, _, _, _, hwritten, hhides, h => by
    obtain ⟨hthen, helse⟩ := (Bool.and_eq_true _ _).mp hwritten
    obtain ⟨marks, _, _, _, hcond, hthenClean, helseClean, _⟩ := clean_branch_iff.mp h
    have hmarks : Takes scope [] _ _ _ :=
      .of_marked (hhides.accounts hdeclaring (Expr.resolves (inferred?_of_expects? hcond)))
    have hfirst := takes_statements hdeclaring thenBody hthen (hhides.after hmarks) hthenClean
    exact hmarks.after (hfirst.append
      (takes_statements hdeclaring elseBody helse ((hhides.after hmarks).after hfirst) helseClean))
  | .loop _ body _, _, _, _, _, hwritten, hhides, h => by
    obtain ⟨marks, _, hheader, hclean, _⟩ := clean_loop_iff.mp h
    have hmarks : Takes scope [] _ _ _ :=
      .of_marked (hhides.accounts hdeclaring (resolves_of_heads? hheader))
    exact hmarks.after (takes_statements hdeclaring body hwritten (hhides.after hmarks) hclean)

private theorem takes_statements (hdeclaring : scope.declaring = none) :
    ∀ (stmts : List Stmt) {s s' : AnalysisState} {stopped : Bool} {outs : List Stmt},
    Stmt.writtenAll stmts →
      Hides scope s hidden → Clean (statements scope stopped stmts) s outs s' →
        Takes scope (Stmt.declaredAll stmts) (Stmt.usagesAll hidden stmts) s s'
  | [], _, _, _, _, _, _, h => by
    rw [statements] at h
    obtain ⟨_, rfl⟩ := clean_pure_iff.mp h
    exact .refl scope _
  | stmt :: rest, s, _, stopped, _, hwritten, hhides, h => by
    obtain ⟨hstmt, hrest⟩ := (Bool.and_eq_true _ _).mp hwritten
    obtain ⟨_, _, _, _, hfirst, hmore, _⟩ := exists_of_clean_statements_cons h
    have hwarned : Takes scope [] [] s _ :=
      .of_same (same_warned s scope.options (if stopped then [stmt] else []))
    have htakes := takes_statement hdeclaring stmt hstmt (hhides.after hwarned) hfirst
    exact hwarned.after (htakes.append
      (takes_statements hdeclaring rest hrest ((hhides.after hwarned).after htakes) hmore))

end

private theorem takes_announce (hfun : scope.function = none) {counts : Bool}
    (h : Clean (announce scope item) s counts s') :
    Takes scope item.ownName?.toList [] s s' ∧ ∀ kind name, item.introduced? = some (kind, name) →
      s'.defs.Holds kind name item.span false := by
  obtain ⟨hname, rfl⟩ | ⟨name, hname, hfree,
      ⟨hnone, span, rfl⟩ | ⟨kind, decl, d, hsome, hinserts, rfl⟩⟩ :=
    cases_of_clean_announce h
  · rw [hname]
    refine ⟨.refl scope s, fun kind name hsome => ?_⟩
    rw [Stmt.ownName?_of_introduced? hsome] at hname
    cases hname
  · rw [hname, hnone]
    refine ⟨⟨nodup_singleton name, forall_mem_singleton.mpr hfree, ?_, ?_, rfl, .of_eq rfl⟩, nofun⟩
    · refine forall_mem_singleton.mpr fun ⟨_, hpend⟩ => ?_
      change (s.pending.insert name span).get? name = none at hpend
      rw [Table.get?_insert, if_pos rfl] at hpend
      cases hpend
    · rintro other ⟨hnew, hpend⟩
      change (s.pending.insert name span).get? other = none at hpend
      rw [Table.get?_insert] at hpend
      split at hpend
      · cases hpend
      · exact ⟨hnew, hpend⟩
  · rw [hname, hsome]
    refine ⟨.of_adds hinserts.adds rfl (funext fun other => ?_) hfree
      fun kind' name' span' used' hholds => ?_, ?_⟩
    · rw [Scope.param?_eq_none hfun, Scope.param?_eq_none hfun]
    · simpa using hholds.inserts (hholds.ne_of_undeclared hfree.2.1) hinserts
    · rintro _ _ ⟨⟩
      exact hinserts.holds hfree.2.1

private theorem takes_announceAll (hfun : scope.function = none) {counts : List Bool}
    (h : Clean (items.mapM (announce scope)) s counts s') :
    Takes scope (items.filterMap Stmt.ownName?) [] s s' ∧ ∀ item ∈ items, ∀ kind name,
      item.introduced? = some (kind, name) → s'.defs.Holds kind name item.span false := by
  induction items generalizing s counts with
  | nil =>
    obtain ⟨_, rfl⟩ := clean_pure_iff.mp h
    exact ⟨.refl scope s, nofun⟩
  | cons item rest ih =>
    obtain ⟨_, s₁, _, hfirst, hrest, _⟩ := (clean_mapM_cons_iff (reports_announce scope)).mp h
    obtain ⟨htakes, hitem⟩ := takes_announce hfun hfirst
    obtain ⟨htakes', hitems⟩ := ih hrest
    have hall := htakes.append htakes'
    refine ⟨?_, forall_mem_cons.mpr ⟨fun kind name hname => ?_, hitems⟩⟩
    · rw [filterMap_cons]
      cases hname : item.ownName? with
      | none => rwa [hname] at hall
      | some name => rwa [hname] at hall
    · simpa using htakes'.accounts _ _ _ _ (hitem kind name hname)

/-- What has become of an item after its declaration: a value is settled, all else is left for
later. -/
def StagedFrom (item : Stmt) (staged : Staged) : Prop :=
  (item.valueName? ≠ none ∧ ∃ stmt, staged = .settled stmt) ∨ staged = .pending item

/-- The declaration of an item adds the value that the item declares. The initializer of a variable
is run first. -/
theorem addsValue_of_clean_declareItem (hwritten : item.written)
    (hname : item.valueName? = some name)
    (h : Clean (declareItem scope item) s (staged, assigns) s') :
    AddsValue scope item.valueKind name item.span item.valueNames (s.unannounce name) s' ∧
      (∃ stmt, staged = .settled stmt) ∧ ((assigns = [] ∧ item.valueKind ≠ .variable) ∨
        ∃ init, assigns = [.assign name .set init item.span] ∧ init.names = item.valueNames) := by
  cases item with
  | varDecl other type value hoisted span =>
    cases hname
    obtain ⟨p, hclean, heq⟩ := clean_declareItem_varDecl_iff.mp h
    cases heq
    cases hoisted with
    | true => cases hwritten
    | false =>
      obtain ⟨hvalue, ⟨hnone, hlist⟩ | ⟨init, hinit, hnames⟩⟩ :=
        addsValue_of_clean_declareVariable hclean
      · exact ⟨hvalue, ⟨p.1, rfl⟩, .inl ⟨by rw [hnone]; rfl, by simp [Stmt.valueKind, hlist]⟩⟩
      · exact ⟨hvalue, ⟨p.1, rfl⟩, .inr ⟨init, by rw [hinit]; rfl, hnames⟩⟩
  | constDecl other type value span =>
    cases hname
    obtain ⟨hclean, heq⟩ := clean_declareItem_constDecl_iff.mp h
    cases heq
    exact ⟨addsValue_of_clean_declareConstant hclean, ⟨_, rfl⟩, .inl ⟨rfl, nofun⟩⟩
  | _ => cases hname

/-- The names of the values that come later stay announced when an item is declared. -/
theorem announces_of_clean_declareItem {rest : List Stmt} (hwritten : item.written)
    (hann : s.Announces ((item :: rest).filterMap Stmt.valueName?))
    (h : Clean (declareItem scope item) s (staged, assigns) s') :
    s'.Announces (rest.filterMap Stmt.valueName?) := by
  rw [filterMap_cons] at hann
  cases hname : item.valueName? with
  | none =>
    obtain ⟨_, _, rfl⟩ := eq_of_clean_declareItem hname h
    rwa [hname] at hann
  | some name =>
    rw [hname] at hann
    obtain ⟨hadds, _⟩ := addsValue_of_clean_declareItem hwritten hname h
    obtain ⟨hne, hnodup⟩ := nodup_cons.mp hann.nodup
    obtain ⟨decl, hdecl⟩ := hadds.adds
    refine ⟨hnodup, fun other hother kind => ?_, fun other hother => ?_⟩
    · have hother' : ¬ (kind = item.valueKind ∧ name = other) := by
        rintro ⟨_, rfl⟩
        exact hne hother
      rw [hdecl, if_neg hother']
      exact hann.undeclared other (mem_cons_of_mem _ hother) kind
    · have hother' : name ≠ other := by
        rintro rfl
        exact hne hother
      rw [hadds.pending, unannounce, Table.get?_erase, if_neg hother']
      exact hann.pending other (mem_cons_of_mem _ hother)

/-- Declaring announced items keeps what was declared before. -/
theorem grows_of_clean_declareItems {staged : List Staged}
    (hann : s.Announces (items.filterMap Stmt.valueName?))
    (h : Clean (declareItems scope (items.map (·, true))) s (staged, assigns) s') :
    Grows anything s s' := by
  rw [← countedNames_map] at hann
  exact Ends.of_ok (withinAt_declareItems scope hann.nodup hann.undeclared (fun _ _ _ => trivial)
    fun _ _ _ _ => trivial) h.1

private theorem takes_declareItems (hfun : scope.function = none) {staged : List Staged}
    (hwritten : ∀ item ∈ items, item.written) (hann : s.Announces (items.filterMap Stmt.valueName?))
    (h : Clean (declareItems scope (items.map (·, true))) s (staged, assigns) s') :
    Takes scope [] (Usage.reads [] (items.flatMap Stmt.valueNames)) s s' ∧
    List.Forall₂ StagedFrom items staged ∧
      ∀ item ∈ items, ∀ name, item.valueName? = some name →
      s'.defs.Holds item.valueKind name item.span
        ((Usage.reads [] (items.flatMap Stmt.valueNames)).any
        (Usage.isOf item.valueKind name)) := by
  induction items generalizing s staged assigns with
  | nil =>
    obtain ⟨heq, rfl⟩ := clean_pure_iff.mp h
    cases heq
    exact ⟨.refl scope s, .nil, nofun⟩
  | cons item rest ih =>
    obtain ⟨hitem, hrest⟩ := forall_mem_cons.mp hwritten
    obtain ⟨first, firstAssigns, s₁, more, moreAssigns, hfirst, hmore, rfl, rfl⟩ :=
      exists_of_clean_declareItems_cons h
    obtain ⟨htakes, hforall, hholds⟩ :=
      ih hrest (announces_of_clean_declareItem hitem hann hfirst) hmore
    rw [flatMap_cons, Usage.reads_append]
    cases hname : item.valueName? with
    | none =>
      obtain ⟨rfl, _, rfl⟩ := eq_of_clean_declareItem hname hfirst
      rw [Stmt.valueNames_eq_nil hname]
      refine ⟨htakes, .cons (.inr rfl) hforall, forall_mem_cons.mpr ⟨fun name hsome => ?_, hholds⟩⟩
      rw [hname] at hsome
      cases hsome
    | some name =>
      obtain ⟨hvalue, hstaged, _⟩ := addsValue_of_clean_declareItem hitem hname hfirst
      rw [filterMap_cons, hname] at hann
      have hfresh := hann.undeclared
      have hhides : Hides scope s [] := .nil hfun
      -- Neither the name that is declared nor one that comes later is read.
      have hnever (other : String) (hother : other ∈ name :: rest.filterMap Stmt.valueName?)
          (kind : DeclarationKind) :
          (Usage.reads [] item.valueNames).any (Usage.isOf kind other) = false := by
        refine hvalue.any_reads hfun (hfresh other hother) ?_ kind
        by_cases heq : other = name
        · exact .inl heq
        · right
          change (s.pending.erase name).get? other ≠ none
          rw [Table.get?_erase, if_neg (Ne.symm heq)]
          exact hann.pending other hother
      refine ⟨(hvalue.takes_nothing (hfresh name mem_cons_self) hhides).append htakes,
        .cons (.inl ⟨by simp [hname], hstaged⟩) hforall,
        forall_mem_cons.mpr ⟨fun other hsome => ?_, ?_⟩⟩
      · rw [hname] at hsome
        cases hsome
        rw [any_append, hnever name mem_cons_self]
        exact htakes.accounts _ _ _ _ (hvalue.accounts (hfresh name mem_cons_self) hhides).2
      · intro later hlater other hsome
        rw [any_append, hnever other (mem_cons_of_mem _ (mem_filterMap.mpr ⟨later, hlater, hsome⟩))]
        exact hholds later hlater other hsome

private theorem param?_ne_none_iff {params : List Parameter} {f : Function} {first : Nat}
    (hf : s.defs.lookup .function name = some (.function f))
    (hparams : f.params = Definitions.numberParams first (params.map fun p => (p.name, p.type))) :
    { scope with function := some name }.param? s.defs other ≠ none ↔
    other ∈ params.map (·.name) := by
  obtain ⟨g, hg, hsame⟩ := Definitions.exists_function_of_lookup hf
  have hnames := Definitions.names_numberParams first (params.map fun p => (p.name, p.type))
  rw [← hparams, ← hsame, map_map] at hnames
  change _ ↔ other ∈ params.map (Prod.fst ∘ fun p => (p.name, p.type))
  rw [← hnames]
  simp [Scope.param?, Scope.function?, hg, Function.param?]

private theorem takes_itemBody (hfun : scope.function = none) (hdeclaring : scope.declaring = none)
    {out : Stmt} (hstaged : StagedFrom item staged) (hitem : item.isItem) (hwritten : item.written)
    (hheld : item.Announced s.defs) (h : Clean (itemBody scope staged) s out s') :
    Takes scope item.inner item.bodyUsages s s' ∧ ¬ item.Shadows := by
  obtain ⟨hvalue, stmt, rfl⟩ | rfl := hstaged
  · obtain ⟨_, rfl⟩ := clean_pure_iff.mp h
    cases item with
    | varDecl | constDecl => exact ⟨.refl scope s, nofun⟩
    | _ => exact absurd rfl hvalue
  cases item with
  | funcDecl name params body span endLine =>
    obtain ⟨_, hbody, _⟩ := clean_itemBody_function_iff.mp h
    obtain ⟨_, f, first, hf, hparams⟩ := hheld
    have hhides : Hides { scope with function := some name } s (params.map (·.name)) :=
      fun _ => (param?_ne_none_iff hf hparams).symm
    have hinner : { scope with function := some name }.declaring = none := hdeclaring
    obtain ⟨hnodup, hfree, htaken, hback, _, haccounts⟩ :=
      takes_statements hinner body hwritten hhides hbody
    have hparam (d : Definitions) (other : String) : scope.param? d other = none :=
      Scope.param?_eq_none hfun d other
    refine ⟨⟨hnodup, fun other hother => ⟨hparam _ other, (hfree other hother).2⟩, htaken, hback,
      ?_, haccounts⟩, ?_⟩
    · funext other
      rw [hparam, hparam]
    · rintro ⟨param, hmem, hdeclared⟩
      exact (hhides param.name).mp (mem_map_of_mem hmem) (hfree param.name hdeclared).1
  | event kind name param body span endLine =>
    obtain ⟨marks, _, hbeg, hbody, _⟩ := clean_itemBody_event_iff.mp h
    obtain ⟨hparam, hwritten⟩ := (Bool.and_eq_true _ _).mp hwritten
    have hhides (s : AnalysisState) : Hides scope s [] := .nil hfun
    have hmarks : Takes scope [] _ s _ :=
      .of_marked ((hhides s).accounts hdeclaring (resolves_of_begins? hparam hbeg))
    exact ⟨hmarks.after (takes_statements hdeclaring body hwritten (hhides _) hbody), nofun⟩
  | varDecl | constDecl =>
    obtain ⟨_, rfl⟩ := clean_pure_iff.mp h
    exact ⟨.refl scope s, nofun⟩
  | _ => cases hitem

private theorem takes_bodies (hfun : scope.function = none) (hdeclaring : scope.declaring = none)
    {outs : List Stmt} {staged : List Staged} (hstaged : List.Forall₂ StagedFrom items staged)
    (hitems : ∀ item ∈ items, item.isItem ∧ item.written)
    (hheld : ∀ item ∈ items, item.Announced s.defs)
    (h : Clean (staged.mapM (itemBody scope)) s outs s') :
    Takes scope (items.flatMap Stmt.inner) (items.flatMap Stmt.bodyUsages) s s' ∧ ∀ item ∈ items,
    ¬ item.Shadows := by
  induction hstaged generalizing s outs with
  | nil =>
    obtain ⟨_, rfl⟩ := clean_pure_iff.mp h
    exact ⟨.refl scope s, nofun⟩
  | @cons item first items rest hfirst _ ih =>
    obtain ⟨⟨hitem, hwritten⟩, hitems⟩ := forall_mem_cons.mp hitems
    obtain ⟨hhead, htail⟩ := forall_mem_cons.mp hheld
    obtain ⟨out, s₁, _, hout, hrest, _⟩ := (clean_mapM_cons_iff (reports_itemBody scope)).mp h
    have hwithin : Within (Grows anything) (itemBody scope first) :=
      within_itemBody (fun _ _ _ => trivial) scope first fun _ _ _ _ => trivial
    have hkeeps := (Ends.of_ok (hwithin s) hout.1).defs.kept
    obtain ⟨htakes, hshadows⟩ := takes_itemBody hfun hdeclaring hfirst hitem hwritten hhead hout
    obtain ⟨htakes', hshadows'⟩ :=
      ih hitems (fun item hitem => (htail item hitem).kept hkeeps) hrest
    exact ⟨htakes.append htakes', forall_mem_cons.mpr ⟨hshadows, hshadows'⟩⟩

/-- The names that a clean program declares are distinct, and no function declares a parameter in
its body. What is declared on the outermost level is marked if the program uses it. -/
theorem takes_program {catalog : Catalog} {options : AnalysisOptions} {out : List Stmt} {next : Nat}
    (hitems : ∀ item ∈ items, item.isItem ∧ item.written)
    (h : Clean (program { catalog, options } items) { nextId := next } out s') :
    (Stmt.declaredAll items).Nodup ∧ (∀ item ∈ items, ¬ item.Shadows) ∧
      ∀ item ∈ items, ∀ kind name, item.declaration? = some (kind, name) →
        s'.defs.Holds kind name item.span
        ((Stmt.usagesAll [] items).any (Usage.isOf kind name)) := by
  obtain ⟨counts, s₁, staged, assigns, s₂, analyzed, s₃, hcounts, hstaged, hana, hwarned, _⟩ :=
    exists_of_clean_program h
  obtain ⟨hzip, _, hnames, hheld⟩ := announces_of_clean_announceAll hcounts
  rw [hzip] at hstaged
  have hkeeps := (grows_of_clean_declareItems hnames hstaged).defs.kept
  obtain ⟨htakes, hintro⟩ := takes_announceAll rfl hcounts
  obtain ⟨hdeclared, hforall, hvalues⟩ :=
    takes_declareItems rfl (fun item hitem => (hitems item hitem).2) hnames hstaged
  obtain ⟨hinner, hshadows⟩ := takes_bodies rfl rfl hforall hitems
    (fun item hitem => (hheld item hitem).kept hkeeps) hana
  refine ⟨?_, hshadows, fun item hitem kind name hname => ?_⟩
  · have hperm := Stmt.declaredAll_perm fun item hitem => (hitems item hitem).1
    exact hperm.nodup_iff.mpr (htakes.append (hdeclared.after hinner)).nodup
  · rw [← eq_of_clean_warnUnused hwarned, Stmt.any_usagesAll fun item hitem =>
      (hitems item hitem).1]
    refine hinner.accounts _ _ _ _ ?_
    unfold Stmt.declaration? at hname
    cases hfirst : item.introduced? with
    | some p =>
      rw [hfirst] at hname
      cases hname
      simpa using hdeclared.accounts _ _ _ _ (hintro item hitem _ _ hfirst)
    | none =>
      rw [hfirst] at hname
      obtain ⟨name, hvalue, heq⟩ := map_eq_some_iff.mp hname
      cases heq
      exact hvalues item hitem name hvalue

end Analyzer

open Analyzer

/-- Names and identities are unique in every parsed program. In the definitions that the analysis
returns, with or without errors, no name is a key twice, in one table or in two, every entry has the
name that is its key, and no two identities of variables, lists, events and parameters are written
alike. If two declarations anywhere in the program share a name, or a declaration in the body of a
function has the name of a parameter of the function, then the analysis reports an error. -/
theorem analyze_unique (catalog : Catalog) (options : AnalysisOptions) (tokens : List Token) :
    let program := (parse tokens).program
    let result := analyze catalog options program
    result.defs.keys.Nodup ∧ (∀ entry ∈ result.defs.keyed, entry.2 = entry.1) ∧
      (result.defs.identities.map EntityId.text).Nodup ∧
      (¬ (Stmt.declaredAll program.statements).Nodup ∨ (∃ item ∈ program.statements, item.Shadows) →
        result.errors ≠ []) := by
  intro program result
  have hwell : result.defs.WellFormed := wellFormed_analyze catalog options program
  refine ⟨hwell.nodup, hwell.named, hwell.nodup_texts, fun htwice hclean => ?_⟩
  obtain ⟨s, hrun, _⟩ := clean_of_errors_analyze hclean
  obtain ⟨hnodup, hshadows, _⟩ := takes_program (parse_parsed tokens).items hrun
  rcases htwice with htwice | ⟨item, hitem, hshadow⟩
  · exact htwice hnodup
  · exact hshadows item hitem hshadow

/-- Two bodies that declare one name, the second time as a constant. -/
def twoAngles : Source :=
  Source.ofText <| "event gap:\n  drive.move(1)\nfunc turn(size: number):\n  if size > 1:\n" ++
    "    var angle = size\n    drive.move(angle)\n@start:\n  const angle = 3\n  turn(angle)\n"

/-- The second one is an error. -/
theorem analyze_unique_twoAngles :
    let program := (parse (scan "main.bot" twoAngles).tokens).program
    let result := analyze Robot.catalog {} program
    ¬ (Stmt.declaredAll program.statements).Nodup ∧ result.errors ≠ [] ∧
      result.defs.keys = ["angle", "turn", "gap"] := by
  have htwice :
      ¬ (Stmt.declaredAll (parse (scan "main.bot" twoAngles).tokens).program.statements).Nodup := by
    decide +kernel
  exact ⟨htwice, (analyze_unique Robot.catalog {} _).2.2.2 (.inl htwice), by decide +kernel⟩

end BlockScript
