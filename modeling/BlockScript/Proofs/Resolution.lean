import BlockScript.Proofs.Typed

/-!
# Resolution of names

What the analysis resolves each name to, in the order in which it types the names. A resolution is
made from what is declared and announced at that point. The finished analysis declares more, but
whatever a name was resolved to is still there.
-/

namespace BlockScript

variable {touched : List Nat}

open List AnalysisState

/-- A name, where it stands, and what it was resolved to. -/
structure Resolution where
  /-- The function around. -/
  function : Option String
  /-- The node of the name. -/
  id : Nat
  name : String
  entity : Entity
  deriving DecidableEq

/-- What the names at some nodes are resolved to at a point of the analysis. -/
def Scope.uses (scope : Scope) (s : AnalysisState) (names : List (Nat × String)) :
    List Resolution :=
  names.filterMap fun p => (scope.entity? s p.2).map (⟨scope.function, p.1, p.2, ·⟩)

/-- The names in the initializer of a declaration, where the name that is declared has no meaning.
The initializer of a variable that is hoisted is not looked at, unless it is one of a list. -/
def Scope.initializerUses (scope : Scope) (s : AnalysisState) : Stmt → List Resolution
  | .varDecl name type (some value) hoisted _ =>
    if hoisted && !(value.items?.isSome || type.any DataType.isList) then []
    else { scope with declaring := some name }.uses s value.names
  | .constDecl name _ value _ => { scope with declaring := some name }.uses s value.names
  | _ => []

variable {s : AnalysisState}

/-- What is listed after an analyzer, from its result and the state that it leaves. -/
def Analyzer.follow {α β : Type} (x : Analyzer α) (s : AnalysisState)
    (k : α → AnalysisState → List β) : List β :=
  match x s with
  | .ok a s' => k a s'
  | .error _ _ => []

/-- The nodes in the header of a loop that are names. -/
def LoopKind.names : LoopKind → List (Nat × String)
  | .forever => []
  | .times e | .until e => e.names

open Analyzer

mutual

/-- What the names in a statement are resolved to. -/
def Stmt.uses (scope : Scope) (s : AnalysisState) : Stmt → List Resolution
  | .varDecl name type value hoisted span =>
    scope.initializerUses s (.varDecl name type value hoisted span)
  | .constDecl name type value span => scope.initializerUses s (.constDecl name type value span)
  | .funcDecl .. | .event .. => []
  | .call _ args _ => scope.uses s (Expr.namesAll args)
  | .assign _ _ value _ => scope.uses s value.names
  | .branch condition thenBody elseBody _ =>
    scope.uses s condition.names ++
      follow (expectType scope condition .boolean .conditionMismatch) s fun _ s₁ =>
        Stmt.usesAll scope s₁ false thenBody ++
          follow (statements scope false thenBody) s₁ fun _ s₂ =>
          Stmt.usesAll scope s₂ false elseBody
  | .loop kind body _ =>
    scope.uses s kind.names ++
      follow (loopHeader scope kind) s fun _ s₁ => Stmt.usesAll scope s₁ false body

/-- What the names in statements are resolved to. -/
def Stmt.usesAll (scope : Scope) (s : AnalysisState) (stopped : Bool) : List Stmt → List Resolution
  | [] => []
  | stmt :: rest =>
    follow (if stopped && scope.options.warnUnreachable then warn .unreachable stmt.span
      else pure ()) s fun _ s₁ => Stmt.uses scope s₁ stmt ++
        follow (statement scope stmt) s₁ fun result s₂ =>
          Stmt.usesAll scope s₂ (stopped || result.2) rest

end

/-- What the names in the declarations of the outermost level are resolved to. -/
def declarationUses (scope : Scope) (s : AnalysisState) : List (Stmt × Bool) → List Resolution
  | [] => []
  | (item, counts) :: rest =>
    (if counts then scope.initializerUses s item else []) ++
      follow (if counts then declareItem scope item else pure (.settled item, [])) s fun _ s₁ =>
        declarationUses scope s₁ rest

/-- What the names in the body of an item are resolved to. -/
def Staged.uses (scope : Scope) (s : AnalysisState) : Staged → List Resolution
  | .pending (.funcDecl name _ body _ _) =>
    Stmt.usesAll { scope with function := some name } s false body
  | .pending (.event kind name param body span _) =>
    if kind = .custom then Stmt.usesAll scope s false body
    else scope.uses s (param.toList.flatMap Expr.names) ++
      follow (checkEvent scope name param span) s fun _ s₁ => Stmt.usesAll scope s₁ false body
  | _ => []

/-- What the names in the bodies of items are resolved to. -/
def bodyUses (scope : Scope) (s : AnalysisState) : List Staged → List Resolution
  | [] => []
  | staged :: rest =>
    staged.uses scope s ++ follow (itemBody scope staged) s fun _ s₁ => bodyUses scope s₁ rest

/-- What the names in a program are resolved to, in the order of the analysis. -/
def resolutions (catalog : Catalog) (options : AnalysisOptions) (program : Program) :
    List Resolution :=
  let scope : Scope := { catalog, options }
  follow (program.statements.mapM (announce scope)) { nextId := program.nextId } fun counts s₁ =>
    let items := program.statements.zip counts
    declarationUses scope s₁ items ++
      follow (declareItems scope items) s₁ fun staged s₂ => bodyUses scope s₂ staged.1

/-- A run is followed. -/
theorem Analyzer.follow_eq {α β : Type} {x : Analyzer α} {s' : AnalysisState} {a : α}
    (h : x s = .ok a s') (k : α → AnalysisState → List β) : follow x s k = k a s' := by
  rw [follow, h]

/-- What may change while some nodes are analyzed. -/
def AnalysisState.Footprint.over (ids : List Nat) :
    Footprint := ⟨fun kind _ => kind.isValue = true, (· ∈ ids)⟩

/-- Whether an entity is what a name of its kind stands for; a readable property may be hidden by a
declaration. -/
def LowerContext.Has (c : LowerContext) (name : String) : Entity → Prop
  | .param p => c.param? name = some p
  | .reporter signature type =>
    c.param? name = none ∧ Entity.reporter? c.catalog name = some (.reporter signature type)
  | entity => c.param? name = none ∧ c.defs.entity? name = some entity

/-- The result of an analysis, with the resolutions that were made. -/
structure Finished where
  /-- The catalog. -/
  catalog : Catalog
  /-- What is declared. -/
  defs : Definitions
  /-- The types of expressions. -/
  types : TypeTable
  /-- What names were resolved to. -/
  resolved : Resolution → Prop

namespace Finished

/-- What lowering looks up in a function, or outside of all functions. -/
def context (w : Finished) (function : Option String) : LowerContext where
  defs := w.defs
  types := w.types
  catalog := w.catalog
  function := function.bind w.defs.functions.get?

/-- The typing context in a function, or outside of all functions, at a point where some constants
are declared. -/
def typing (w : Finished) (function : Option String) (known : List String) : TypingContext where
  catalog := w.catalog
  types := w.types
  denotes id name entity :=
    w.resolved ⟨function, id, name, entity⟩ ∧ ∀ c, entity = .constant c → name ∈ known
  lists name := w.defs.lookup .list name ≠ none
  checked := True

/-- Whether a resolution agrees with the types that are recorded, and what a name was resolved to is
there. -/
structure Supports (w : Finished) (use : Resolution) : Prop where
  type : w.types.get? use.id = some use.entity.type
  has : (w.context use.function).Has use.name use.entity

/-- Whether a finished analysis goes on from a state: all declarations stay, functions and events
are all there, and the types of some nodes stay. -/
structure Completes (w : Finished) (catalog : Catalog) (nodes : Nat → Prop) (s : AnalysisState) :
    Prop where
  catalog : w.catalog = catalog
  distinct : w.defs.Distinct
  kept : s.defs.Keeps w.defs
  introduced : ∀ kind name, kind.isValue = false → w.defs.lookup kind name ≠ none →
    s.defs.lookup kind name ≠ none
  types : ∀ id, nodes id → w.types.get? id = s.types.get? id

variable {w : Finished} {catalog : Catalog} {nodes nodes' : Nat → Prop} {s s' : AnalysisState}

/-- Fewer nodes may be completed. -/
theorem Completes.mono (h : w.Completes catalog nodes s) (hnodes : ∀ id, nodes' id → nodes id) :
    w.Completes catalog nodes' s :=
  ⟨h.catalog, h.distinct, h.kept, h.introduced, fun id hid => h.types id (hnodes id hid)⟩

/-- It was complete before. -/
theorem Completes.before {ids : List Nat} (h : w.Completes catalog nodes s')
    (hgrows : Grows (.over ids) s s') (hnodes : ∀ id, nodes id → id < s.nextId ∧ id ∉ ids) :
    w.Completes catalog nodes s where
  catalog := h.catalog
  distinct := h.distinct
  kept kind name decl hdecl := h.kept kind name decl (hgrows.defs.kept kind name decl hdecl)
  introduced kind name hkind hname hnone := by
    have hvalue : kind.isValue = true :=
      hgrows.defs.added kind name hnone (h.introduced kind name hkind hname)
    rw [hkind] at hvalue
    cases hvalue
  types id hid := by
    obtain ⟨hlt, hnot⟩ := hnodes id hid
    rw [h.types id hid, hgrows.types id hlt hnot]

end Finished

/-- Whether the function around a scope is declared, and all constants so far are among those
given. -/
structure Scope.Knows (scope : Scope) (s : AnalysisState) (known : List String) : Prop where
  function : ∀ name, scope.function = some name → s.defs.lookup .function name ≠ none
  constants : ∀ name, s.defs.lookup .constant name ≠ none → name ∈ known

private theorem Scope.lookup_constant_of_entity? {scope : Scope} {name : String} {c : Constant}
    (h : scope.entity? s name = some (.constant c)) : s.defs.lookup .constant name ≠ none := by
  unfold Scope.entity? at h
  split at h
  · cases h
  split at h
  · cases h
  split at h
  · rename_i entity hent
    cases h
    rw [Definitions.entity?_eq] at hent
    split at hent <;> cases hent
    rename_i c _ _ hconst
    simp [Definitions.lookup, hconst]
  · split at h
    · cases h
    · obtain ⟨signature, _, hres⟩ := Option.bind_eq_some_iff.mp h
      obtain ⟨_, _, hrep⟩ := Option.map_eq_some_iff.mp hres
      cases hrep

namespace Finished

variable {w : Finished} {catalog : Catalog} {nodes : Nat → Prop} {s s' : AnalysisState}
  {scope : Scope} {known : List String}

private theorem Completes.param?_eq (h : w.Completes catalog nodes s) (hknows : scope.Knows s known)
    (name : String) : (w.context scope.function).param? name = scope.param? s.defs name := by
  refine Definitions.param?_congr (fun function hfun => ?_) name
  obtain ⟨decl, hdecl⟩ := Option.ne_none_iff_exists'.mp (hknows.function function hfun)
  rw [h.kept _ _ _ hdecl, hdecl]

private theorem Completes.has (h : w.Completes scope.catalog nodes s) (hknows : scope.Knows s known)
    {name : String} {entity : Entity} (hent : scope.entity? s name = some entity) :
    (w.context scope.function).Has name entity := by
  have hparam := h.param?_eq hknows name
  unfold Scope.entity? at hent
  cases hparam? : scope.param? s.defs name with
  | some p =>
    rw [hparam?] at hent
    cases hent
    exact hparam.trans hparam?
  | none =>
    rw [hparam?] at hent hparam
    dsimp only at hent
    split at hent
    · cases hent
    split at hent
    · rename_i found hfound
      cases hent
      obtain ⟨kind, decl, hdecl, hof⟩ := Definitions.exists_lookup_of_entity? hfound
      have hfinal := Definitions.entity?_of_lookup h.distinct (h.kept _ _ _ hdecl) hof
      cases decl <;> cases hof <;> exact ⟨hparam, hfinal⟩
    · split at hent
      · cases hent
      · obtain ⟨signature, hsig, hres⟩ := Option.bind_eq_some_iff.mp hent
        obtain ⟨type, htype, rfl⟩ := Option.map_eq_some_iff.mp hres
        refine ⟨hparam, ?_⟩
        change Entity.reporter? w.catalog name = _
        rw [h.catalog]
        exact hent

end Finished

namespace Expr

variable {c : TypingContext}

mutual

/-- Every name in a typed expression denotes something of the type that is recorded. -/
theorem Typed.names : ∀ {e : Expr} {type : DataType}, e.Typed c type → ∀ p ∈ e.names,
    ∃ entity, c.denotes p.1 p.2 entity ∧ c.types.get? p.1 = some entity.type
  | .ident _ _, _, .ident hname htype, p, hp => by
    rw [Expr.names, mem_singleton] at hp
    subst hp
    exact ⟨_, hname, htype⟩
  | .call _ _ _, _, .call hargs _ _ _ _ _, p, hp | .cast _ _ _, _, .cast hargs _ _, p, hp
  | .not _ _, _, .not hargs _, p, hp | .group _ _, _, .group hargs _, p, hp => hargs.names p hp
  | .binary _ _ _ _, _, .binary hleft hright _ _, p, hp => by
    rcases mem_append.mp hp with hp | hp
    · exact hleft.names p hp
    · exact hright.names p hp

/-- Typed names denote. -/
theorem TypedAll.names : ∀ {es : List Expr} {types : List DataType}, TypedAll c es types →
    ∀ p ∈ namesAll es, ∃ entity, c.denotes p.1 p.2 entity ∧ c.types.get? p.1 = some entity.type
  | _ :: _, _, .cons hfirst hrest, p, hp => by
    rcases mem_append.mp hp with hp | hp
    · exact hfirst.names p hp
    · exact hrest.names p hp

end

end Expr

namespace Finished

variable {w : Finished} {nodes : Nat → Prop} {s s' : AnalysisState} {scope : Scope}
  {known : List String}

/-- What the typing context of a point in the analysis says goes over to the finished analysis. -/
theorem Completes.refines (h : w.Completes scope.catalog nodes s')
    (hgrows : Grows (.over touched) s s') (herrs : s'.errors = s.errors)
    (hknows : scope.Knows s known) {ids : List Nat} {names : List (Nat × String)}
    (hids : ∀ id ∈ ids, nodes id) (huses : ∀ use ∈ scope.uses s names, w.resolved use) :
    (scope.typing s s').Refines (w.typing scope.function known) ids names where
  catalog := h.catalog
  types id hid := h.types id (hids id hid)
  denotes p hp entity hent := by
    have hent : scope.entity? s p.2 = some entity := hent
    refine ⟨huses _ (mem_filterMap.mpr ⟨p, hp, by rw [hent]; rfl⟩), fun c hc => ?_⟩
    subst hc
    exact hknows.constants p.2 (Scope.lookup_constant_of_entity? hent)
  lists _ hname := h.kept.lookup_ne_none (hgrows.defs.kept.lookup_ne_none hname)
  checked _ := herrs

/-- The resolutions of typed names are supported by the finished analysis. -/
theorem Completes.supports (h : w.Completes scope.catalog nodes s')
    (hgrows : Grows (.over touched) s s') (hknows : scope.Knows s known)
    {names : List (Nat × String)} (hnodes : ∀ p ∈ names, nodes p.1)
    (hnames : ∀ p ∈ names, ∃ entity, (scope.typing s s').denotes p.1 p.2 entity ∧
      s'.types.get? p.1 = some entity.type) : ∀ use ∈ scope.uses s names, w.Supports use := by
  intro use huse
  obtain ⟨p, hp, hmap⟩ := mem_filterMap.mp huse
  obtain ⟨entity, hent, rfl⟩ := Option.map_eq_some_iff.mp hmap
  obtain ⟨entity', hent', htype⟩ := hnames p hp
  cases hent.symm.trans hent'
  refine ⟨(h.types _ (hnodes p hp)).trans htype, ?_⟩
  have hbefore : w.Completes scope.catalog (fun _ => False) s :=
    (h.mono fun _ hfalse => hfalse.elim).before hgrows fun _ hfalse => hfalse.elim
  exact hbefore.has hknows hent

end Finished

end BlockScript
