import BlockScript.Catalog.Robot
import BlockScript.Proofs.Inferred

/-!
# Folding keeps types

A value fits a type if it is one of its values, where a picture is held as a text. Operators, casts
and functions compute values that fit their types from operands that do. So if what is known of the
names in a typed expression fits their types, then the value that folding finds for the expression
fits its type. The argument is made for every relation between values and types that casts and
operators respect.
-/

namespace BlockScript

variable {value result : Value} {type : DataType}

/-- The type of the values that stand for values of a type. -/
def DataType.held : DataType → DataType
  | .image => .string
  | type => type

/-- Whether a value stands for a value of a type. -/
def Value.Fits (value : Value) (type : DataType) : Prop := value.dataType = type.held

instance (value : Value) (type : DataType) : Decidable (value.Fits type) :=
  inferInstanceAs (Decidable (_ = _))

private theorem Value.fits_dataType (value : Value) : value.Fits value.dataType := by
  cases value <;> rfl

private theorem Value.fits_of_cast {pictures : Pictures} {target : DataType}
    (h : value.cast pictures target = .ok (some result)) : result.Fits target := by
  unfold Value.cast at h
  split at h
  · cases h
    rfl
  · split at h
    · cases h
      rfl
    · cases h
  · cases h
    rfl
  · split at h
    · cases h
      rfl
    · split at h
      · cases h
        rfl
      · split at h
        · cases h
          rfl
        · cases h
  · cases h

private theorem Value.eq_of_fits_number {n : Float} (h : (Value.number n).Fits type) :
    type = .number := by
  cases type with
  | number => rfl
  | _ => cases h

private theorem Value.eq_of_fits_string {s : String} (h : (Value.string s).Fits type)
    (hscalar : type.isScalar) : type = .string := by
  cases type with
  | string => rfl
  | image => cases hscalar
  | _ => cases h

private theorem fits_of_guard {p : Prop} [Decidable p] {t : DataType} (hvalue : value.Fits t)
    (h : (if p then some t else none) = some type) : value.Fits type := by
  split at h
  · exact Option.some.inj h ▸ hvalue
  · cases h

private theorem resultType?_add {left right : DataType}
    (h : BinaryOp.add.resultType? left right = some type) :
    left.isScalar ∧
      right.isScalar ∧ type = if left = .string || right = .string then .string else .number := by
  unfold BinaryOp.resultType? at h
  dsimp only at h
  split at h
  · rename_i hscalar
    rw [Bool.and_eq_true] at hscalar
    exact ⟨hscalar.1, hscalar.2, (Option.some.inj h).symm⟩
  · cases h

private theorem BinaryOp.fits_of_eval? {op : BinaryOp} {leftType rightType : DataType}
    {left right : Value} (htype : op.resultType? leftType rightType = some type)
    (hleft : left.Fits leftType) (hright : right.Fits rightType)
    (h : op.eval? left right = some result) : result.Fits type := by
  unfold BinaryOp.eval? at h
  split at h
  -- Only the type of a sum depends on those of its operands.
  · cases h
    rw [Value.eq_of_fits_number hleft, Value.eq_of_fits_number hright] at htype
    cases htype
    rfl
  · cases h
    obtain ⟨hscalar, _, rfl⟩ := resultType?_add htype
    rw [Value.eq_of_fits_string hleft hscalar]
    rfl
  · cases h
    obtain ⟨_, hscalar, rfl⟩ := resultType?_add htype
    rw [Value.eq_of_fits_string hright hscalar]
    simp [Value.Fits, Value.dataType, DataType.held]
  · cases h
    exact fits_of_guard (t := .number) rfl htype
  · cases h
    exact fits_of_guard (t := .number) rfl htype
  · split at h
    · cases h
    · cases h
      exact fits_of_guard (t := .number) rfl htype
  · split at h
    · cases h
    · cases h
      exact fits_of_guard (t := .number) rfl htype
  · cases h
    exact fits_of_guard (t := .boolean) rfl htype
  · cases h
    exact fits_of_guard (t := .boolean) rfl htype
  · cases h
    exact fits_of_guard (t := .boolean) rfl htype
  · cases h
    exact fits_of_guard (t := .boolean) rfl htype
  · cases h
    exact fits_of_guard (t := .boolean) rfl htype
  · cases h

/-- What folding relies on in a relation between values and types. -/
structure Fitting (fits : Value → DataType → Prop) : Prop where
  literal : ∀ value : Value, fits value value.dataType
  cast : ∀ {pictures : Pictures} {target : DataType} {value result : Value},
    value.cast pictures target = .ok (some result) → fits result target
  binary : ∀ {op : BinaryOp} {leftType rightType type : DataType} {left right result : Value},
    op.resultType? leftType rightType = some type → fits left leftType → fits right rightType →
      op.eval? left right = some result → fits result type

/-- Values of types are fitting. -/
theorem Value.fitting_fits : Fitting Value.Fits where
  literal := Value.fits_dataType
  cast := Value.fits_of_cast
  binary := BinaryOp.fits_of_eval?

/-- Whether a value is a text if values of the type are held as texts. -/
def Value.TextIfSo (value : Value) (type : DataType) : Prop :=
  type.held = .string → ∃ text, value = .string text

private theorem Value.Fits.textIfSo (h : value.Fits type) : value.TextIfSo type := by
  intro htype
  rw [Value.Fits, htype] at h
  cases value with
  | string text => exact ⟨text, rfl⟩
  | _ => cases h

/-- Texts come from texts alone, whatever else the values of other types are. -/
theorem Value.fitting_textIfSo : Fitting Value.TextIfSo where
  literal value := value.fits_dataType.textIfSo
  cast h := (Value.fits_of_cast h).textIfSo
  binary {op _ _ _ left right result} hres hleft hright h htype := by
    cases op with
    | add =>
      obtain ⟨_, _, rfl⟩ := resultType?_add hres
      have hoperand : (∃ text, left = .string text) ∨ ∃ text, right = .string text := by
        split at htype
        · rename_i hor
          rw [Bool.or_eq_true, decide_eq_true_eq, decide_eq_true_eq] at hor
          exact hor.imp (fun heq => hleft (congrArg DataType.held heq))
            fun heq => hright (congrArg DataType.held heq)
        · cases htype
      rcases hoperand with ⟨text, rfl⟩ | ⟨text, rfl⟩
      · exact ⟨_, (Option.some.inj h).symm⟩
      · cases left <;> exact ⟨_, (Option.some.inj h).symm⟩
    | _ =>
      unfold BinaryOp.resultType? at hres
      dsimp only at hres
      split at hres
      · cases hres
        cases htype
      · cases hres

/-- The functions that folding computes. -/
def mathFunctions : List String :=
  ["math.abs", "math.floor", "math.ceil", "math.round", "math.sqrt", "math.sin", "math.cos"]

private theorem mem_mathFunctions_of_mathValue? {name : String} {x y : Float}
    (h : mathValue? name x = some y) : name ∈ mathFunctions := by
  unfold mathValue? at h
  split at h <;> first | decide | cases h

/-- Whether all that folding computes are numbers by the catalog, too. -/
def Catalog.ComputesNumbers (catalog : Catalog) : Prop :=
  ∀ name ∈ mathFunctions, ∀ b ∈ catalog.functions.get? name, ∀ signature ∈ b.signatures,
    signature.result = some .number

/-- The robot computes numbers. -/
theorem Robot.computesNumbers : Robot.catalog.ComputesNumbers := by
  unfold Catalog.ComputesNumbers
  decide

namespace Expr

private theorem value?_literalOr (tag : Tag) (value : Option Value) (e : Expr) :
    (literalOr tag value e).value? = (value <|> e.value?) := by
  cases value <;> rfl

/-- What folding knows of a name at a node fits what the name denotes there. -/
def KnownFit (fits : Value → DataType → Prop) (t : TypingContext) (c : FoldContext)
    (names : List (Nat × String)) : Prop :=
  ∀ p ∈ names, ∀ entity, t.denotes p.1 p.2 entity → ∀ value, c.known? p.2 = some value →
    fits value entity.type

variable {fits : Value → DataType → Prop} {t : TypingContext} {c : FoldContext}

private theorem fits_callValue? (hfitting : Fitting fits) (hnums : t.catalog.ComputesNumbers)
    {callee : String} {b : Builtin} {types : List DataType} {signature : Signature}
    (hcallee : t.catalog.functions.get? callee = some b)
    (hresolve : b.resolve types = some signature) (hres : signature.result = some type)
    {values : List (Option Value)} (h : callValue? callee values = some value) :
    fits value type := by
  unfold callValue? at h
  split at h
  · obtain ⟨y, hmath, rfl⟩ := Option.map_eq_some_iff.mp h
    have hnum := hnums callee (mem_mathFunctions_of_mathValue? hmath) b hcallee signature
      (List.mem_of_find?_eq_some hresolve)
    rw [hres] at hnum
    cases hnum
    exact hfitting.literal (.number y)
  · cases h

/-- If what is known of the names in a typed expression fits their types, then so does the value
that folding finds for the expression. -/
theorem fits_of_fold (hfitting : Fitting fits) (hnums : t.catalog.ComputesNumbers) {e : Expr}
    {type : DataType} (htyped : e.Typed t type) (hknown : KnownFit fits t c e.names) {value : Value}
    (hvalue : (e.fold c).value? = some value) : fits value type := by
  cases e with
  | literal tag known =>
    rw [fold] at hvalue
    cases hvalue
    cases htyped
    exact hfitting.literal _
  | ident tag name =>
    cases htyped with | ident hname _ =>
    rw [fold, value?_literalOr] at hvalue
    cases hknown? : c.known? name with
    | none =>
      rw [hknown?] at hvalue
      cases hvalue
    | some known =>
      rw [hknown?] at hvalue
      cases hvalue
      exact hknown _ List.mem_cons_self _ hname _ hknown?
  | call tag callee args =>
    cases htyped with | call _ hcallee hresolve _ hres _ =>
    rw [fold, value?_literalOr] at hvalue
    cases hcall : callValue? callee ((foldAll c args).map value?) with
    | none =>
      rw [hcall] at hvalue
      cases hvalue
    | some known =>
      rw [hcall] at hvalue
      cases hvalue
      exact fits_callValue? hfitting hnums hcallee hresolve hres hcall
  | cast tag target operand =>
    rw [fold, value?_literalOr] at hvalue
    cases hcast : castValue? c.pictures target (operand.fold c).value? with
    | none =>
      rw [hcast] at hvalue
      cases hvalue
    | some known =>
      rw [hcast] at hvalue
      cases hvalue
      obtain ⟨from?, _, hok⟩ := Option.bind_eq_some_iff.mp hcast
      split at hok
      · rename_i heq
        rw [hok] at heq
        cases htyped
        exact hfitting.cast heq
      · cases hok
  | not tag operand =>
    cases htyped
    rw [fold, value?_literalOr] at hvalue
    cases hnot : notValue? (operand.fold c).value? with
    | none =>
      rw [hnot] at hvalue
      cases hvalue
    | some known =>
      rw [hnot] at hvalue
      cases hvalue
      unfold notValue? at hnot
      split at hnot
      · rename_i b _
        cases hnot
        exact hfitting.literal (.boolean !b)
      · cases hnot
  | binary tag op left right =>
    cases htyped with | binary hleft hright hop _ =>
    rw [fold, value?_literalOr] at hvalue
    cases hbinary : binaryValue? op (left.fold c).value? (right.fold c).value? with
    | none =>
      rw [hbinary] at hvalue
      cases hvalue
    | some known =>
      rw [hbinary] at hvalue
      cases hvalue
      unfold binaryValue? at hbinary
      split at hbinary
      · rename_i l r hl hr
        have hfirst :=
          fits_of_fold hfitting hnums hleft (fun p hp => hknown p (List.mem_append_left _ hp)) hl
        have hsnd :=
          fits_of_fold hfitting hnums hright (fun p hp => hknown p (List.mem_append_right _ hp)) hr
        exact hfitting.binary hop hfirst hsnd hbinary
      · cases hbinary
  | group tag inner =>
    cases htyped with | group hinner _ =>
    rw [fold, value?_literalOr] at hvalue
    refine fits_of_fold hfitting hnums hinner hknown ?_
    cases hinner? : (inner.fold c).value? with
    | none =>
      rw [hinner?] at hvalue
      have hgroup : (inner.fold c).value? = some value := hvalue
      rw [← hinner?, hgroup]
    | some known =>
      rw [hinner?] at hvalue
      exact hvalue
  | list => cases htyped
termination_by structural e

mutual

/-- Parts are typed. -/
theorem Typed.parts :
    ∀ {e : Expr} {type : DataType}, e.Typed t type → ∀ part ∈ e.parts, ∃ found, part.Typed t found
  | .literal .., _, h | .ident .., _, h => List.forall_mem_singleton.mpr ⟨_, h⟩
  | .call .., _, .call hargs hcallee hresolve hlists hres htype =>
    List.forall_mem_cons.mpr ⟨⟨_, .call hargs hcallee hresolve hlists hres htype⟩, hargs.parts⟩
  | .cast .., _, .cast hoperand hcast htype =>
    List.forall_mem_cons.mpr ⟨⟨_, .cast hoperand hcast htype⟩, hoperand.parts⟩
  | .not .., _, .not hoperand htype =>
    List.forall_mem_cons.mpr ⟨⟨_, .not hoperand htype⟩, hoperand.parts⟩
  | .binary .., _, .binary hleft hright hop htype => List.forall_mem_cons.mpr
      ⟨⟨_, .binary hleft hright hop htype⟩, List.forall_mem_append.mpr ⟨hleft.parts, hright.parts⟩⟩
  | .group .., _, .group hinner htype =>
    List.forall_mem_cons.mpr ⟨⟨_, .group hinner htype⟩, hinner.parts⟩

private theorem TypedAll.parts : ∀ {es : List Expr} {types : List DataType}, TypedAll t es types →
    ∀ part ∈ partsAll es, ∃ found, part.Typed t found
  | [], _, .nil => nofun
  | _ :: _, _, .cons hfirst hrest => List.forall_mem_append.mpr ⟨hfirst.parts, hrest.parts⟩

end

end Expr

/-- The names of the parameters of the function around a scope. -/
def Scope.paramNames (scope : Scope) (d : Definitions) : List String :=
  (scope.function? d).toList.flatMap fun f => f.params.map (·.name)

private theorem Scope.param?_eq_none_iff (scope : Scope) (d : Definitions) (name : String) :
    scope.param? d name = none ↔ name ∉ scope.paramNames d := by
  unfold Scope.param? Scope.paramNames Function.param?
  cases scope.function? d <;> simp

private theorem Scope.knownFit {scope : Scope} {s s' : AnalysisState} {c : FoldContext}
    (hdistinct : s.defs.Distinct)
    (hvalues : ∀ name k, s.defs.constants.get? name = some k → ∀ value ∈ k.value, value.Fits k.type)
    (hdefs : c.defs = s.defs) (hparams : c.params = scope.paramNames s.defs)
    (names : List (Nat × String)) : Expr.KnownFit Value.Fits (scope.typing s s') c names := by
  rintro ⟨_, name⟩ _ entity hent value hknown
  have hent : scope.entity? s name = some entity := hent
  unfold FoldContext.known? at hknown
  rw [hparams, hdefs] at hknown
  split at hknown
  · cases hknown
  rename_i hparam
  obtain ⟨k, hk, hvalue⟩ := Option.bind_eq_some_iff.mp hknown
  have hconst : s.defs.lookup .constant name ≠ none := by simp [Definitions.lookup, hk]
  -- No other table has the name, so that it denotes the constant.
  have hother (kind : DeclarationKind) (hkind : kind ≠ .constant) :
      s.defs.lookup kind name = none := by
    by_contra hne
    exact hkind (hdistinct name kind .constant hne hconst)
  unfold Scope.entity? at hent
  rw [(scope.param?_eq_none_iff s.defs name).mpr (by simpa using hparam)] at hent
  dsimp only at hent
  split at hent
  · cases hent
  rw [Definitions.entity?, hother .variable (by decide), hother .list (by decide)] at hent
  simp only [Definitions.lookup, hk] at hent
  cases hent
  exact hvalues name k hk value hvalue

/-- Where typing an expression returns, all its parts have recorded types, and whenever folding
makes a part a literal, the value of the literal fits the recorded type. -/
theorem Analyzer.fits_of_exprType {scope : Scope} {s s' : AnalysisState} {e : Expr}
    {type : DataType} {c : FoldContext} (hcatalog : scope.catalog = Robot.catalog)
    (hdistinct : s.defs.Distinct)
    (hvalues : ∀ name k, s.defs.constants.get? name = some k → ∀ value ∈ k.value, value.Fits k.type)
    (hdefs : c.defs = s.defs) (hparams : c.params = scope.paramNames s.defs) (hnodup : e.ids.Nodup)
    (htype : exprType scope e s = .ok type s') :
    ∀ part ∈ e.parts, ∃ found, s'.types.get? part.id = some found ∧
      ∀ tag value, part.fold c = .literal tag value → value.Fits found := by
  intro part hpart
  have htyped : e.Typed (scope.typing s s') type := (exprType_ends scope e s hnodup).of_ok htype
  obtain ⟨found, hfound⟩ := htyped.parts part hpart
  refine ⟨found, hfound.recorded, fun tag value hfold => ?_⟩
  have hnums : scope.catalog.ComputesNumbers := by
    rw [hcatalog]
    exact Robot.computesNumbers
  refine Expr.fits_of_fold Value.fitting_fits hnums hfound
    (scope.knownFit hdistinct hvalues hdefs hparams _) ?_
  rw [hfold]
  rfl

/-- A constant, and a function with a parameter that has the name of another one. -/
def greetings : Definitions :=
  (((Definitions.addConstant {} "greeting" .string (some (.string "Hi")) .nowhere).addConstant
    "who" .string
    (some (.string "robot")) .nowhere).addFunction "greet" [("who", .string)] .nowhere 0)

/-- `greeting + "!"` and a parameter after it. -/
def greetingExpr : Expr :=
  .binary ⟨4, .nowhere⟩ .add
    (.group ⟨3, .nowhere⟩ (.binary ⟨2, .nowhere⟩ .add (.ident ⟨0, .nowhere⟩ "greeting")
      (.literal ⟨1, .nowhere⟩ (.string "!")))) (.ident ⟨5, .nowhere⟩ "who")

/-- The values fit their types. -/
theorem fits_of_exprType_greetingExpr :
    let scope : Scope := { catalog := Robot.catalog, options := {}, function := some "greet" }
    let c : FoldContext := ⟨Robot.catalog, {}, fun _ => .ok "", greetings, ["who"]⟩
    ∃ s', Analyzer.exprType scope greetingExpr { nextId := 6, defs := greetings } = .ok .string s' ∧
      greetingExpr.fold c = .binary ⟨4, .nowhere⟩ .add (.literal ⟨3, .nowhere⟩ (.string "Hi!"))
        (.ident ⟨5, .nowhere⟩ "who") ∧
      ∀ part ∈ greetingExpr.parts, ∃ found, s'.types.get? part.id = some found ∧
        ∀ tag value, part.fold c = .literal tag value → value.Fits found := by
  intro scope c
  have hwell : greetings.WellFormed :=
    ((Definitions.wellFormed_empty.addConstant (by decide) ..).addConstant (by decide)
      ..).addFunction (by decide) ..
  obtain ⟨s', hrun⟩ :
      ∃ s', Analyzer.exprType scope greetingExpr { nextId := 6, defs := greetings } =
      .ok .string s' := ⟨_, rfl⟩
  refine ⟨s', hrun, rfl, Analyzer.fits_of_exprType rfl hwell.distinct ?_ rfl rfl (by decide) hrun⟩
  intro name k hk
  simp only [greetings, Definitions.addFunction, Definitions.addConstant, Table.get?_insert] at hk
  split at hk
  · cases hk
    rintro _ ⟨⟩
    rfl
  · split at hk
    · cases hk
      rintro _ ⟨⟩
      rfl
    · cases hk

end BlockScript
