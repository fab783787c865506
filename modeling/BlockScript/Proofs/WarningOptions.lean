import BlockScript.Proofs.AnalyzedPlaces
import BlockScript.Proofs.Stages
import BlockScript.Proofs.Streams

/-!
# Warning options

Which warnings are given is decided where they are given, and nothing else looks at it. So the
analysis under some options does, step by step, what it does when all warnings are given, and leaves
out the warnings that are not asked for. The other stages give no warning of these kinds, and so the
same holds of a whole compilation. Whether warnings count as errors is looked at when everything
else is done.
-/

namespace BlockScript

open List

/-- Whether a diagnostic is given under some options. -/
def AnalysisOptions.shows (options : AnalysisOptions) (d : Diagnostic) : Bool :=
  match d.cause with
  | .analysis (.unused _ _) => options.warnUnused
  | .analysis .unreachable => options.warnUnreachable
  | _ => true

/-- The state without the warnings that are not asked for. -/
def AnalysisState.shown (options : AnalysisOptions) (s : AnalysisState) : AnalysisState :=
  { s with warnings := s.warnings.filter options.shows }

namespace Analyzer

variable {α β : Type} {options : AnalysisOptions}

/-- Whether `y` does what `x` does, but for warnings that are not asked for. -/
def Shows (options : AnalysisOptions) (x y : Analyzer α) : Prop :=
  ∀ s, Ends x s (fun a s' => y (s.shown options) = .ok a (s'.shown options))
    fun d s' => y (s.shown options) = .error d (s'.shown options)

namespace Shows

variable {x y : Analyzer α} {f g : α → Analyzer β}

private theorem pure (a : α) : Shows options (pure a) (pure a) := fun _ => rfl

private theorem bind (hx : Shows options x y) (hf : ∀ a, Shows options (f a) (g a)) :
    Shows options (x >>= f) (y >>= g) := by
  intro s
  rw [ends_bind]
  refine (hx s).mono (fun a s' hy => ?_) fun d s' hy => run_bind_of_error hy
  rw [run_bind_of_ok hy]
  exact hf a s'

private theorem get {f g : AnalysisState → Analyzer β}
    (h : ∀ s, Shows options (f s) (g (s.shown options))) : Shows options (get >>= f) (get >>= g) :=
  fun s => h s s

private theorem modify {change : AnalysisState → AnalysisState}
    (h : ∀ s, change (s.shown options) = (change s).shown options) :
    Shows options (modify change) (modify change) :=
  fun s => congrArg (EStateM.Result.ok ()) (h s)

private theorem reporting (hx : Shows options x y) : Shows options (reporting x) (reporting y) := by
  intro s
  rw [ends_reporting]
  refine (hx s).mono (fun a s' hy => ?_) fun d s' hy => ?_
  · rw [Analyzer.reporting, hy]
  · rw [Analyzer.reporting, hy]
    rfl

private theorem mapM (hf : ∀ a, Shows options (f a) (g a)) (l : List α) :
    Shows options (l.mapM f) (l.mapM g) := by
  induction l with
  | nil => exact .pure _
  | cons a rest ih =>
    rw [mapM_cons, mapM_cons]
    exact (hf a).bind fun _ => ih.bind fun _ => .pure _

end Shows

private theorem declaring_shows :
    Declaring (fun _ => True) (fun _ => True) fun _ x => Shows options x x where
  span _ := trivial
  pure := .pure
  bind := .bind
  look h heq := .get fun s => heq s (s.shown options) rfl rfl ▸ h s
  fail _ _ := fun _ => rfl
  report _ _ := .modify fun _ => rfl
  reporting := .reporting
  mark _ := .modify fun _ => rfl
  recordType _ _ := .modify fun _ => rfl
  define _ := .modify fun _ => rfl
  pending _ := .modify fun _ => rfl

private theorem shows_defaultInitializer (name : String) (type : Option DataType) (span : Span) :
    Shows options (defaultInitializer name type span) (defaultInitializer name type span) := by
  unfold defaultInitializer
  split
  · exact fun _ => rfl
  split
  · exact fun _ => rfl
  · exact fun _ => rfl

/-! ### What does not look at the options -/

variable (options) (scope : Scope)

mutual

private theorem exprType_options (options : AnalysisOptions) (scope : Scope) :
    ∀ e : Expr, exprType { scope with options } e = exprType scope e
  | .literal .. | .list .. => by rw [exprType, exprType]
  | .ident .. => by
    rw [exprType, exprType]
    rfl
  | .call _ _ args => by
    rw [exprType, exprType, exprTypes_options options scope args]
    rfl
  | .cast _ _ e | .not _ e | .group _ e => by
    rw [exprType, exprType, exprType_options options scope e]
  | .binary _ _ left right => by
    rw [exprType, exprType, exprType_options options scope left,
      exprType_options options scope right]

private theorem exprTypes_options (options : AnalysisOptions) (scope : Scope) :
    ∀ es : List Expr, exprTypes { scope with options } es = exprTypes scope es
  | [] => by rw [exprTypes, exprTypes]
  | e :: rest => by
    rw [exprTypes, exprTypes, exprType_options options scope e,
      exprTypes_options options scope rest]

end

private theorem initializerType_options (name : String) (value : Expr) :
    initializerType { scope with options } name value = initializerType scope name value :=
  exprType_options options { scope with declaring := some name } value

private theorem declareVariable_options (name : String) (type : Option DataType)
    (value : Option Expr) (hoisted : Bool) (span : Span) :
    declareVariable { scope with options } name type value hoisted span =
      declareVariable scope name type value hoisted span := by
  have helement : elementType { scope with options } name = elementType scope name := by
    funext known item
    simp only [elementType, initializerType_options]
  simp only [declareVariable, listElement, itemsType, helement, scalarInitializer,
    initializerType_options]

private theorem declareConstant_options (name : String) (type : Option DataType) (value : Expr)
    (span : Span) :
    declareConstant { scope with options } name type value span =
    declareConstant scope name type value span := by
  simp only [declareConstant, initializerType_options]

private theorem declareItems_options (items : List (Stmt × Bool)) :
    declareItems { scope with options } items = declareItems scope items := by
  have hitem (item : Stmt) : declareItem { scope with options } item = declareItem scope item := by
    unfold declareItem
    simp only [declareVariable_options, declareConstant_options]
  induction items with
  | nil => rfl
  | cons first rest ih => rw [declareItems_cons, declareItems_cons, hitem, ih]

private theorem expectType_options (e : Expr) (expected : DataType)
    (mismatch : DataType → AnalysisFault) :
    expectType { scope with options } e expected mismatch =
    expectType scope e expected mismatch := by
  rw [expectType, expectType, exprType_options]

private theorem loopHeader_options (kind : LoopKind) :
    loopHeader { scope with options } kind = loopHeader scope kind := by
  cases kind with
  | forever => rfl
  | times => exact expectType_options ..
  | «until» => exact expectType_options ..

private theorem checkEvent_options (name : String) (param : Option Expr) (span : Span) :
    checkEvent { scope with options } name param span = checkEvent scope name param span := by
  simp only [checkEvent, exprType_options]

/-! ### Statements -/

private theorem shows_warn (fault : AnalysisFault) (span : Span) : Shows options (warn fault span)
      (if options.shows (.analysis fault span) then warn fault span else pure ()) := by
  intro s
  let warning := { Diagnostic.analysis fault span with severity := .warning }
  have hshows : options.shows warning = options.shows (.analysis fault span) := rfl
  have hfilter := filter_append s.warnings [warning] (p := options.shows)
  by_cases hasked : options.shows (.analysis fault span)
  · rw [if_pos hasked]
    rw [filter_cons_of_pos (hshows.trans hasked), filter_nil] at hfilter
    exact congrArg (fun warnings => EStateM.Result.ok () { s with warnings }) hfilter.symm
  · rw [if_neg hasked]
    rw [filter_cons_of_neg (hshows ▸ hasked), filter_nil, append_nil] at hfilter
    exact congrArg (fun warnings => EStateM.Result.ok () { s with warnings }) hfilter.symm

mutual

private theorem shows_statement (options : AnalysisOptions) {scope : Scope}
    (hscope : scope.options = {}) :
    ∀ stmt : Stmt, Shows options (statement scope stmt) (statement { scope with options } stmt)
  | .varDecl name type value hoisted span => by
    rw [statement, statement, declareVariable_options options scope]
    refine Shows.bind (declaring_shows.checkUnique trivial scope name) fun free => ?_
    split
    · exact Shows.bind
        (declaring_shows.declareVariable scope name type (fun e _ => e.tagged_true) hoisted
        trivial (shows_defaultInitializer name type span)) fun _ => .pure _
    · exact .pure _
  | .constDecl name type value span => by
    rw [statement, statement, declareConstant_options options scope]
    refine Shows.bind (declaring_shows.checkUnique trivial scope name) fun free => ?_
    split
    · exact Shows.bind (declaring_shows.declareConstant scope name type value.tagged_true trivial)
        fun _ => .pure _
    · exact .pure _
  | .funcDecl .. | .event .. => by
    rw [statement, statement]
    exact Shows.bind (declaring_shows.reportFault trivial _) fun _ => .pure _
  | .call name args span => by
    rw [statement, statement, exprTypes_options options scope]
    exact Shows.bind
      (Shows.reporting (declaring_shows.call scope name (Expr.taggedAll_true args) trivial))
      fun _ => .pure _
  | .assign target op value span => by
    rw [statement, statement, assignment, assignment, exprType_options options scope]
    exact Shows.bind
      (Shows.reporting (declaring_shows.assignment scope target op value.tagged_true trivial))
      fun _ => .pure _
  | .branch condition thenBody elseBody span => by
    rw [statement, statement, expectType_options options scope]
    refine Shows.bind (declaring_shows.expectType scope condition.tagged_true _ _) fun _ => ?_
    refine (shows_statements options hscope false thenBody).bind fun _ => ?_
    exact (shows_statements options hscope false elseBody).bind fun _ => .pure _
  | .loop kind body span => by
    unfold statement
    rw [loopHeader_options options scope]
    refine Shows.bind (declaring_shows.loopHeader scope kind.tagged_true) fun _ => ?_
    exact (shows_statements options hscope false body).bind fun _ => .pure _

private theorem shows_statements (options : AnalysisOptions) {scope : Scope}
    (hscope : scope.options = {}) :
    ∀ (stopped : Bool) (stmts : List Stmt),
      Shows options (statements scope stopped stmts)
      (statements { scope with options } stopped stmts)
  | stopped, [] => by
    rw [statements, statements]
    exact .pure _
  | stopped, stmt :: rest => by
    rw [statements_cons, statements_cons]
    refine Shows.bind ?_ fun _ => ?_
    · cases stopped with
      | false => exact .pure _
      | true =>
        rw [hscope]
        exact shows_warn options .unreachable stmt.span
    · refine (shows_statement options hscope stmt).bind fun found => ?_
      exact (shows_statements options hscope _ rest).bind fun _ => .pure _

end

/-! ### Programs -/

variable {scope} (hscope : scope.options = {})

include hscope

private theorem shows_itemBody (staged : Staged) :
    Shows options (itemBody scope staged) (itemBody { scope with options } staged) := by
  unfold itemBody
  split
  · exact .pure _
  · rename_i name params body span endLine
    have hfun : { scope with function := some name }.options = {} := hscope
    have hbody := shows_statements options hfun false body
    exact hbody.bind fun _ => .pure _
  · rename_i kind name param body span endLine
    have hbody := shows_statements options hscope false body
    have hevent :
        Shows options (checkEvent scope name param span) (checkEvent scope name param span) :=
      declaring_shows.checkEvent scope name (fun e _ => e.tagged_true) trivial
    rw [checkEvent_options options scope]
    dsimp only
    split
    · exact Shows.bind hevent fun _ => hbody.bind fun _ => .pure _
    · exact hbody.bind fun _ => .pure _
  · exact .pure _

private theorem shows_warnUnused :
    Shows options (warnUnused scope) (warnUnused { scope with options }) := by
  intro s
  rw [Ends, run_warnUnused, run_warnUnused, hscope]
  have hfilter : (AnalysisOptions.unusedWarnings {} s.defs).filter options.shows =
      options.unusedWarnings s.defs := by
    unfold AnalysisOptions.unusedWarnings
    rw [if_pos rfl, filter_map]
    cases hasked : options.warnUnused with
    | true => exact congrArg _ (filter_eq_self.mpr fun _ _ => hasked)
    | false =>
      exact congrArg (map _) (filter_eq_nil_iff.mpr fun _ _ => by
        simp [AnalysisOptions.shows, unusedWarning, Diagnostic.analysis, hasked])
  simp [AnalysisState.shown, hfilter]

private theorem shows_program (items : List Stmt) :
    Shows options (program scope items) (program { scope with options } items) := by
  have hannounce (item : Stmt) :
      Shows options (announce scope item) (announce { scope with options } item) :=
    declaring_shows.announce scope item.of_true
  refine (Shows.mapM hannounce items).bind fun counts => ?_
  rw [declareItems_options options scope]
  have hdeclare : Shows options (declareItems scope (items.zip counts))
      (declareItems scope (items.zip counts)) :=
    declaring_shows.declareItems scope (fun _ name type => shows_defaultInitializer name type _)
      fun p _ => p.1.of_true
  refine Shows.bind hdeclare fun staged => ?_
  refine (Shows.mapM (shows_itemBody options hscope) staged.1).bind fun analyzed => ?_
  exact (shows_warnUnused options hscope).bind fun _ => .pure _

end Analyzer

/-- The analysis does the same under all options, and leaves out the warnings that are not asked
for. -/
theorem analyze_shown (catalog : Catalog) (options : AnalysisOptions) (program : Program) :
    analyze catalog options program = { analyze catalog {} program with
      warnings := (analyze catalog {} program).warnings.filter options.shows } := by
  have hshows :
      Analyzer.Shows options (Analyzer.program { catalog, options := {} } program.statements)
      (Analyzer.program { catalog, options } program.statements) :=
    Analyzer.shows_program options rfl program.statements
  unfold analyze
  cases hrun :
      Analyzer.program { catalog, options := {} } program.statements
      { nextId := program.nextId } with
  | ok statements s =>
    have hoptions :
        Analyzer.program { catalog, options } program.statements { nextId := program.nextId } =
        .ok statements (s.shown options) := (hshows _).of_ok hrun
    rw [hoptions]
    rfl
  | error d s =>
    have hoptions :
        Analyzer.program { catalog, options } program.statements { nextId := program.nextId } =
        .error d (s.shown options) := (hshows _).of_error hrun
    rw [hoptions]
    rfl

/-! ### Compilation -/

namespace AnalysisOptions

variable (options : AnalysisOptions) {d : Diagnostic}

private theorem shows_expand {macros : Macros} {tokens : List Token}
    (hd : d ∈ (macros.expand tokens).diagnostics) : options.shows d := by
  have hmacros : macros.Holds fun _ => True := fun _ _ _ _ _ => trivial
  obtain ⟨⟨fault, hcause⟩, -⟩ := (hmacros.expandSteps (P := fun _ => True) (fun _ _ => trivial)
    tokens.length fun _ _ => ⟨trivial, trivial⟩).2 d hd
  rw [shows, hcause]

private theorem shows_parse {tokens : List Token} (hd : d ∈ (parse tokens).errors) :
    options.shows d := by
  obtain ⟨fault, span, rfl, -⟩ :=
    (parse_of (P := fun _ => True) (N := fun _ => True) (fun _ _ => trivial)
    (fun _ _ => ⟨trivial, fun _ _ => trivial⟩) trivial).2.1 d hd
  rfl

private theorem shows_lower {types : TypeTable} {catalog : Catalog} {defs : Definitions}
    {program : Program} (hd : d ∈ (program.lower catalog types defs).errors) : options.shows d := by
  obtain ⟨fault, span, rfl⟩ := Program.fromLowering_of_mem_lower hd
  rfl

end AnalysisOptions

private theorem isError_of_mem_warnings {catalog : Catalog} {options : AnalysisOptions}
    {program : Program} {d : Diagnostic} (hd : d ∈ (analyze catalog options program).warnings) :
    d.isError = false :=
  ((analyze_of (P := fun _ => True) (N := fun _ => True) (W := False) catalog options
    fun item _ => item.of_true).2.2.1 d hd).2

/-- The result of a compilation without the warnings that are not asked for. -/
def AnalysisOptions.shown (options : AnalysisOptions) :
    Except CompileFailure Compilation → Except CompileFailure Compilation
  | .ok result => .ok { result with warnings := result.warnings.filter options.shows }
  | .error failure => .error { failure with warnings := failure.warnings.filter options.shows }

namespace Collected

variable {options : AnalysisOptions} {c : Collected} {path : String} {lines : List String}

/-- The collected diagnostics without the warnings that are not asked for. -/
def shown (options : AnalysisOptions) (c : Collected) : Collected :=
  { c with warnings := c.warnings.filter options.shows }

private theorem add_shown {diagnostics : List Diagnostic}
    (h : ∀ d ∈ diagnostics, d.isError = false → options.shows d) :
    (c.shown options).add diagnostics = (c.add diagnostics).shown options := by
  have hall : (diagnostics.filter (!·.isError)).filter options.shows = diagnostics.filter
      (!·.isError) := by
    refine filter_eq_self.mpr fun d hd => ?_
    obtain ⟨hmem, hwarning⟩ := mem_filter.mp hd
    exact h d hmem (by simpa using hwarning)
  simp only [shown, add, filter_append, hall]

private theorem add_shown_filter {warnings errors : List Diagnostic}
    (hwarns : ∀ d ∈ warnings, d.isError = false) (herrs : ∀ d ∈ errors, d.isError) :
    (c.shown options).add (warnings.filter options.shows ++ errors) =
      (c.add (warnings ++ errors)).shown options := by
  have hwarns' : ∀ d ∈ warnings.filter options.shows, d.isError = false :=
    fun d hd => hwarns d (mem_of_mem_filter hd)
  have hnone {l : List Diagnostic} (h : ∀ d ∈ l, d.isError = false) : l.filter (·.isError) = [] :=
    filter_eq_nil_iff.mpr fun d hd => by simp [h d hd]
  have hall {l : List Diagnostic} (h : ∀ d ∈ l, d.isError = false) : l.filter (!·.isError) = l :=
    filter_eq_self.mpr fun d hd => by simp [h d hd]
  have hrest : errors.filter (!·.isError) = [] :=
    filter_eq_nil_iff.mpr fun d hd => by simp [herrs d hd]
  simp only [shown, add, filter_append, hnone hwarns, hnone hwarns', hall hwarns, hall hwarns',
    hrest, append_nil]

private theorem filter_inFile (options : AnalysisOptions) (path : String)
    (warnings : List Diagnostic) :
    (warnings.filter options.shows).map (·.inFile path) = (warnings.map (·.inFile path)).filter
    options.shows := by
  rw [filter_map]
  rfl

private theorem check_bind_shown {f g : Unit → Except CompileFailure Compilation}
    (h : f () = options.shown (g ())) :
    (c.shown options).check path lines >>= f = options.shown (c.check path lines >>= g) := by
  unfold check
  cases herrs : c.errors with
  | nil =>
    simp only [shown, herrs]
    exact h
  | cons d rest =>
    simp only [shown, herrs, filter_inFile]
    rfl

end Collected

private theorem compile_shown (path : String) (catalog : Catalog) (pictures : Pictures)
    (defines : List String) (options : AnalysisOptions) (source : Source) :
    compile path catalog pictures { defines, analysis := options } source =
      options.shown (compile path catalog pictures { defines } source) := by
  unfold compile
  dsimp only
  cases scanSource path defines source with
  | error d => rfl
  | ok scanned =>
    obtain ⟨macros, tokens⟩ := scanned
    dsimp only
    generalize hexp : macros.expand tokens = expansion
    generalize hparsed : parse expansion.tokens = parsed
    have hfirst : ∀ d ∈ expansion.diagnostics ++ parsed.errors, options.shows d = true := by
      rw [forall_mem_append, ← hparsed, ← hexp]
      exact ⟨fun d hd => options.shows_expand hd, fun d hd => options.shows_parse hd⟩
    generalize hcollected : Collected.add {} (expansion.diagnostics ++ parsed.errors) = collected
    have hshown : collected.shown options = collected := by
      rw [← hcollected]
      exact (Collected.add_shown fun d hd _ => hfirst d hd).symm
    have hwarns : ∀ d ∈ (analyze catalog {} parsed.program).warnings, d.isError = false :=
      fun d hd => isError_of_mem_warnings hd
    rw [analyze_shown catalog options parsed.program]
    dsimp only
    conv_lhs => rw [← hshown]
    refine Collected.check_bind_shown ?_
    rw [Collected.add_shown_filter hwarns (grows_analyze _ _ _).2]
    refine Collected.check_bind_shown ?_
    rw [Collected.add_shown fun d hd hwarning =>
      absurd hwarning (by simp [Program.isError_of_mem_fold hd])]
    refine Collected.check_bind_shown ?_
    rw [Collected.add_shown fun d hd _ => options.shows_lower hd]
    refine Collected.check_bind_shown ?_
    exact congrArg (fun warnings => Except.ok (Compilation.mk _ _ warnings _))
      (Collected.filter_inFile options path _)

/-- Whether a compilation that counts warnings as errors follows from one that does not: nothing
changes without warnings, they become the errors where there were none, and no failure becomes a
success. -/
def Hardened (lenient strict : Except CompileFailure Compilation) : Prop :=
  match lenient with
  | .ok result =>
    strict = if result.warnings.isEmpty then .ok result
      else .error ⟨result.warnings.map (·.promote), [], result.lines⟩
  | .error failure => ∃ harder, strict = .error harder ∧ failure.errors <+: harder.errors

private theorem Collected.hardened_check_bind {c : Collected} {path : String} {lines : List String}
    {f g : Unit → Except CompileFailure Compilation} (h : Hardened (f ()) (g ())) :
    Hardened (c.check path lines >>= f) (c.check path lines >>= g) := by
  unfold check
  split
  · exact h
  · exact ⟨_, rfl, prefix_refl _⟩

private theorem Collected.hardened_finish {c : Collected} {path : String} {lines : List String}
    (graph : Graph) (defs : Definitions) : Hardened (c.check path lines >>= fun _ =>
        .ok ⟨graph, defs, c.warnings.map (·.inFile path), lines⟩)
      (c.strict.check path lines >>= fun _ =>
        .ok ⟨graph, defs, c.strict.warnings.map (·.inFile path), lines⟩) := by
  unfold check strict
  cases c.errors with
  | nil =>
    cases c.warnings with
    | nil => rfl
    | cons d rest =>
      -- A warning is promoted and put into its file in either order.
      have hpromote : ((d :: rest).map (·.promote)).map (·.inFile path) =
          ((d :: rest).map (·.inFile path)).map (·.promote) := by
        rw [map_map, map_map]
        rfl
      exact congrArg (fun errors => Except.error (CompileFailure.mk errors [] lines)) hpromote
  | cons d rest => exact ⟨_, rfl, by simp⟩

/-- Options for warnings never influence what is compiled. -/
theorem compile_warning_options (path : String) (catalog : Catalog) (pictures : Pictures)
    (options : CompileOptions) (source : Source) :
    (∀ analysis,
      compile path catalog pictures { options with analysis, warningsAsErrors := false } source =
        analysis.shown (compile path catalog pictures
          { options with analysis := {}, warningsAsErrors := false } source)) ∧
      Hardened (compile path catalog pictures { options with warningsAsErrors := false } source)
        (compile path catalog pictures { options with warningsAsErrors := true } source) := by
  refine ⟨fun analysis => compile_shown path catalog pictures options.defines analysis source, ?_⟩
  unfold compile
  dsimp only
  cases scanSource path options.defines source with
  | error d => exact ⟨_, rfl, List.prefix_refl _⟩
  | ok scanned =>
    refine Collected.hardened_check_bind ?_
    refine Collected.hardened_check_bind ?_
    refine Collected.hardened_check_bind ?_
    exact Collected.hardened_finish _ _

end BlockScript
