import BlockScript.Lowering.Expression
import BlockScript.Proofs.Declarations
import BlockScript.Proofs.Runs
import BlockScript.Typing.Analysis

/-!
# What names denote

A name denotes a parameter of the function around it, a variable, a list, a constant or a readable
property. The analysis and the lowering of a program look names up in different tables. Here both
lookups are said as one choice among entities, and the type of a name is the type of its entity.
-/

namespace BlockScript

variable {decl : Declaration} {f : Function}

/-- What a name denotes in an expression. Marks of use and known values are left out. -/
inductive Entity where
  | param (p : FunctionParam)
  | scalar (v : Variable)
  | list (l : ListVariable)
  | constant (c : Constant)
  /-- A readable property of the catalog, with its type. -/
  | reporter (signature : Signature) (type : DataType)
  deriving DecidableEq

namespace Entity

/-- The type of what a name denotes. -/
def type : Entity → DataType
  | .param p => p.type
  | .scalar v => v.type
  | .list l => l.type
  | .constant c => c.type
  | .reporter _ type => type

/-- What a declaration makes of its name in expressions; functions and events are no values. -/
def ofDeclaration? : Declaration → Option Entity
  | .scalar v => some (.scalar v)
  | .list l => some (.list l)
  | .constant c => some (.constant c)
  | _ => none

/-- The readable property with a name. -/
def reporter? (catalog : Catalog) (name : String) : Option Entity :=
  (catalog.reporter? name).bind fun signature => signature.result.map (.reporter signature)

end Entity

/-- The variable, list or constant with a name, in this order. -/
def Definitions.entity? (d : Definitions) (name : String) : Option Entity :=
  (d.lookup .variable name <|> d.lookup .list name <|> d.lookup .constant name).bind
    Entity.ofDeclaration?

/-- What a name denotes where the analysis stands: a parameter, else a variable, list or constant
that is declared so far, else a readable property. A name has no meaning in its own initializer, nor
if it is declared later on the outermost level. -/
def Scope.entity? (scope : Scope) (s : AnalysisState) (name : String) : Option Entity :=
  match scope.param? s.defs name with
  | some p => some (.param p)
  | none =>
    if scope.declaring = some name then none
    else match s.defs.entity? name with
      | some entity => some entity
      | none =>
        if s.pending.contains name then none else Entity.reporter? scope.catalog name

/-- What a name denotes in the lowering of a program. -/
def LowerContext.entity? (c : LowerContext) (name : String) : Option Entity :=
  match c.param? name with
  | some p => some (.param p)
  | none => c.defs.entity? name <|> Entity.reporter? c.catalog name

/-- The definitions after an entity has been marked as used under a name. -/
def Definitions.use (d : Definitions) (name : String) : Entity → Definitions
  | .scalar _ => d.useVariable name
  | .list _ => d.useList name
  | .constant _ => d.useConstant name
  | _ => d

namespace Definitions

variable {d d' : Definitions} {name : String} {kind : DeclarationKind}

/-- What is read of a variable, a list and a constant. -/
theorem entity?_eq (d : Definitions) (name : String) : d.entity? name =
      match d.scalars.get? name, d.lists.get? name, d.constants.get? name with
      | some v, _, _ => some (.scalar { v with used := false })
      | none, some l, _ => some (.list { l with used := false, values := [] })
      | none, none, some c => some (.constant { c with used := false, value := none })
      | none, none, none => none := by
  unfold entity? lookup
  cases d.scalars.get? name <;> cases d.lists.get? name <;> cases d.constants.get? name <;> rfl

/-- Look-ups tell what is denoted. -/
theorem entity?_congr (h : d'.lookup = d.lookup) : d'.entity? = d.entity? := by
  funext name
  unfold entity?
  rw [h]

/-- What a name denotes is declared in one of the tables. -/
theorem exists_lookup_of_entity? {entity : Entity} (h : d.entity? name = some entity) :
    ∃ kind decl, d.lookup kind name = some decl ∧ Entity.ofDeclaration? decl = some entity := by
  obtain ⟨decl, hdecl, hent⟩ := Option.bind_eq_some_iff.mp h
  cases hvar : d.lookup .variable name with
  | some v =>
    rw [hvar] at hdecl
    exact ⟨.variable, decl, hvar.trans hdecl, hent⟩
  | none =>
    rw [hvar] at hdecl
    cases hlist : d.lookup .list name with
    | some l =>
      rw [hlist] at hdecl
      exact ⟨.list, decl, hlist.trans hdecl, hent⟩
    | none =>
      rw [hlist] at hdecl
      exact ⟨.constant, decl, hdecl, hent⟩

/-- A name has one kind. -/
theorem lookup_eq_none_of_distinct (hdist : d.Distinct) (h : d.lookup kind name = some decl)
    (kind' : DeclarationKind) (hne : kind' ≠ kind) : d.lookup kind' name = none := by
  by_contra hsome
  exact hne (hdist name kind' kind hsome (by simp [h]))

/-- A variable, list or constant is denoted by its name. -/
theorem entity?_of_lookup (hdist : d.Distinct) {entity : Entity}
    (h : d.lookup kind name = some decl) (hent : Entity.ofDeclaration? decl = some entity) :
    d.entity? name = some entity := by
  unfold entity?
  cases kind with
  | «variable» =>
    rw [h]
    exact hent
  | list =>
    rw [lookup_eq_none_of_distinct hdist h .variable nofun, h]
    exact hent
  | constant =>
    rw [lookup_eq_none_of_distinct hdist h .variable nofun,
      lookup_eq_none_of_distinct hdist h .list nofun, h]
    exact hent
  | function =>
    obtain ⟨f, _, rfl⟩ := Option.map_eq_some_iff.mp h
    cases hent
  | event =>
    obtain ⟨e, _, rfl⟩ := Option.map_eq_some_iff.mp h
    cases hent

/-- A function is looked up. -/
theorem lookup_function (h : d.functions.get? name = some f) :
    d.lookup .function name = some (.function { f with used := false }) := by
  simp [lookup, h]

/-- A function is what is found. -/
theorem exists_function_of_lookup (h : d.lookup .function name = some (.function f)) :
    ∃ g, d.functions.get? name = some g ∧ g.params = f.params := by
  obtain ⟨g, hg, heq⟩ := Option.map_eq_some_iff.mp h
  cases heq
  exact ⟨g, hg, rfl⟩

end Definitions

/-- The parameters of the function around stay what they are once the function is declared. -/
theorem Definitions.param?_congr {function : Option String} {d d' : Definitions}
    (h : ∀ name, function = some name → d'.lookup .function name = d.lookup .function name)
    (name : String) :
    (function.bind d'.functions.get?).bind (·.param? name) =
      (function.bind d.functions.get?).bind (·.param? name) := by
  cases hfun : function with
  | none => rfl
  | some function =>
    have hlook := h function hfun
    simp only [Option.bind_some]
    cases hd : d.functions.get? function with
    | none =>
      simp only [Definitions.lookup, hd, Option.map_none, Option.map_eq_none_iff] at hlook
      rw [hlook]
    | some f =>
      rw [Definitions.lookup_function hd] at hlook
      obtain ⟨g, hg, hparams⟩ := Definitions.exists_function_of_lookup hlook
      simp [hg, Function.param?, hparams]

/-- What a name denotes depends on what is declared and announced only. -/
theorem Scope.entity?_congr {scope : Scope} {s s' : AnalysisState}
    (hlook : s'.defs.lookup = s.defs.lookup) (hpend : s'.pending = s.pending) :
    scope.entity? s' = scope.entity? s := by
  funext name
  have hparam : scope.param? s'.defs name = scope.param? s.defs name :=
    Definitions.param?_congr (fun _ _ => by rw [hlook]) name
  unfold Scope.entity?
  rw [hparam, Definitions.entity?_congr hlook, hpend]

/-- The type of a name is the type of what it denotes, which is marked as used. A name without a
meaning has no type, and nothing is changed. -/
theorem Analyzer.nameType_ends (scope : Scope) (name : String) (span : Span) (s : AnalysisState) :
    Ends (nameType scope name span) s
      (fun type s' => ∃ entity, scope.entity? s name = some entity ∧ type = entity.type ∧
        s' = { s with defs := s.defs.use name entity })
      fun d s' => scope.entity? s name = none ∧ s' = s ∧ d.isError := by
  unfold nameType Scope.entity?
  rw [ends_bind, ends_get, Definitions.entity?_eq]
  dsimp only
  cases scope.param? s.defs name with
  | some p => exact ⟨_, rfl, rfl, rfl⟩
  | none =>
    by_cases hdeclaring : scope.declaring = some name
    · simp only [if_pos hdeclaring]
      exact ⟨trivial, rfl, rfl⟩
    simp only [if_neg hdeclaring]
    cases s.defs.scalars.get? name with
    | some v => exact ⟨_, rfl, rfl, rfl⟩
    | none =>
    cases s.defs.lists.get? name with
    | some l => exact ⟨_, rfl, rfl, rfl⟩
    | none =>
    cases s.defs.constants.get? name with
    | some c => exact ⟨_, rfl, rfl, rfl⟩
    | none =>
    dsimp only
    by_cases hpend : s.pending.contains name = true
    · simp only [if_pos hpend]
      exact ⟨trivial, rfl, rfl⟩
    simp only [if_neg hpend]
    have hfail : Ends (do
        if s.defs.functions.contains name then fail (.functionAsValue name) span
        if s.defs.events.contains name then fail (.eventAsValue name) span
        fail (.undefinedName name) span : Analyzer DataType) s
        (fun _ _ => False) fun d s' => s' = s ∧ d.isError = true := by
      dsimp only
      split
      · exact ⟨rfl, rfl⟩
      · split <;> exact ⟨rfl, rfl⟩
    unfold Entity.reporter?
    cases scope.catalog.reporter? name with
    | none => exact hfail.mono (fun _ _ h => h.elim) fun _ _ h => ⟨rfl, h⟩
    | some signature =>
      obtain ⟨params, result, opcode, fields, terminates⟩ := signature
      cases result with
      | none => exact hfail.mono (fun _ _ h => h.elim) fun _ _ h => ⟨rfl, h⟩
      | some type => exact ⟨_, rfl, rfl, rfl⟩

end BlockScript
