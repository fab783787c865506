import BlockScript.Proofs.UniqueNames

/-!
# Hoisting of initializers

A program that the analysis accepts comes back as it was, but for the variables that hold one value.
In a body such a variable is declared without a value, and the assignment of its initializer comes
next. On the outermost level it is declared without a value, and the assignments of all of them are
the body of a handler for the start of the program, which comes first. What such an assignment reads
has been assigned before it, unless it has the name of a readable property.
-/

namespace BlockScript

variable {name : String} {outs assigns items : List Stmt} {item : Stmt} {staged : List Staged}
  {owns : List String}

open AnalysisState List

namespace Stmt

/-- The name that a statement assigns to. -/
def assigned? : Stmt → Option String
  | .assign name _ _ _ => some name
  | _ => none

/-- The names in the expression that a statement assigns. -/
def reads : Stmt → List String
  | .assign _ _ value _ => value.names.map Prod.snd
  | _ => []

/-- The assignments of initializers, in the handler that runs them. -/
def initializers : Stmt → List Stmt
  | .event .startup _ _ body _ _ => body
  | _ => []

end Stmt

namespace Analyzer

variable {scope : Scope} {s s' : AnalysisState} {first : Nat}

section Reads

variable {d : Definitions}

private theorem reads_initializer (hfun : scope.function = none) (hdist : d.Distinct)
    (hkeeps : s.defs.Keeps d) {names : List String}
    (hpend : ∀ other ∈ names, (s.unannounce name).pending.get? other ≠ none)
    (howns : ∀ other ∈ owns, other ∈ name :: names ∨ ¬ s.defs.Undeclared other)
    {kind : DeclarationKind} {span : Span} {reads : List (Nat × String)}
    (h : AddsValue scope kind name span reads (s.unannounce name) s') {p : Nat × String}
    (hp : p ∈ reads) (hvar : d.lookup .variable p.2 ≠ none) :
    s.defs.lookup .variable p.2 ≠ none ∨ (scope.catalog.reporter? p.2).isSome ∧ p.2 ∉ owns := by
  -- A declaration of the name, of any kind, is the one that the program has in the end.
  have hdeclared (kind : DeclarationKind) (hlook : s.defs.lookup kind p.2 ≠ none) :
      s.defs.lookup .variable p.2 ≠ none := by
    rwa [hdist p.2 .variable kind hvar (hkeeps.lookup_ne_none hlook)]
  obtain ⟨kind, hkind⟩ | ⟨hne, hnone, hrep⟩ := h.known hfun hp
  · exact .inl (hdeclared kind hkind)
  by_cases hown : p.2 ∈ owns
  · left
    obtain hmem | hdecl := howns p.2 hown
    · exact absurd hnone (hpend p.2 (mem_of_ne_of_mem hne hmem))
    · obtain ⟨kind, hkind⟩ := not_forall.mp hdecl
      exact hdeclared _ hkind
  · exact .inr ⟨hrep, hown⟩

/-- What the initializers that are run first read is assigned before, or a readable property. -/
theorem reads_declareItems (hfun : scope.function = none) (hdist : d.Distinct)
    (hwritten : ∀ item ∈ items, item.written) (hann : s.Announces (items.filterMap Stmt.valueName?))
    (howns : ∀ other ∈ owns, other ∈ items.filterMap Stmt.valueName? ∨ ¬ s.defs.Undeclared other)
    (h : Clean (declareItems scope (items.map (·, true))) s (staged, assigns) s')
    (hkeeps : s'.defs.Keeps d) :
    ∀ before stmt after, assigns = before ++ stmt :: after →
      ∀ name ∈ stmt.reads, d.lookup .variable name ≠ none → name ∈ before.filterMap Stmt.assigned? ∨
        s.defs.lookup .variable name ≠ none ∨
        (scope.catalog.reporter? name).isSome ∧ name ∉ owns := by
  induction items generalizing s staged assigns with
  | nil =>
    obtain ⟨heq, _⟩ := clean_pure_iff.mp h
    cases heq
    intro before stmt after heq
    simp at heq
  | cons item rest ih =>
    obtain ⟨hitem, hrest⟩ := forall_mem_cons.mp hwritten
    obtain ⟨head, own, s₁, more, others, hhead, hmore, rfl, rfl⟩ :=
      exists_of_clean_declareItems_cons h
    have hannounces₁ := announces_of_clean_declareItem hitem hann hhead
    rw [filterMap_cons] at hann howns
    cases hname : item.valueName? with
    | none =>
      obtain ⟨_, rfl, rfl⟩ := eq_of_clean_declareItem hname hhead
      rw [hname] at howns
      exact ih hrest hannounces₁ howns hmore
    | some name =>
      rw [hname] at hann howns
      obtain ⟨hvalue, _, hown⟩ := addsValue_of_clean_declareItem hitem hname hhead
      obtain ⟨decl, hadds⟩ := hvalue.adds
      have hkeeps₁ : s.defs.Keeps s₁.defs := hadds.keeps (hann.undeclared name mem_cons_self)
      have hkeeps₂ := (grows_of_clean_declareItems hannounces₁ hmore).defs.kept
      have howns₁ :
          ∀ other ∈ owns, other ∈ rest.filterMap Stmt.valueName? ∨ ¬ s₁.defs.Undeclared other := by
        intro other hother
        obtain hmem | hdeclared := howns other hother
        · obtain rfl | hmem := mem_cons.mp hmem
          · exact .inr hadds.not_undeclared
          · exact .inl hmem
        · exact .inr fun hnew => hdeclared (hadds.undeclared_of hnew)
      have hlater := ih hrest hannounces₁ howns₁ hmore
      intro before stmt after heq read hread hvar
      obtain ⟨rfl, hkind⟩ | ⟨init, rfl, hnames⟩ := hown
      · obtain hbefore | hdeclared | hrep := hlater before stmt after heq read hread hvar
        · exact .inl hbefore
        · rw [hadds, if_neg fun h => hkind h.1.symm] at hdeclared
          exact .inr (.inl hdeclared)
        · exact .inr (.inr hrep)
      cases before with
      | nil =>
        cases heq
        obtain ⟨p, hp, rfl⟩ := mem_map.mp hread
        refine .inr (reads_initializer hfun hdist (fun kind name decl hdecl => hkeeps kind name decl
          (hkeeps₂ kind name decl (hkeeps₁ kind name decl hdecl)))
          (fun other hother => ?_) howns hvalue (hnames ▸ hp) hvar)
        rw [← hvalue.pending]
        exact hannounces₁.pending other hother
      | cons first before =>
        obtain ⟨rfl, hothers⟩ := List.cons.inj heq
        obtain hbefore | hdeclared | hrep := hlater before stmt after hothers read hread hvar
        · exact .inl (mem_cons_of_mem _ hbefore)
        · rw [hadds] at hdeclared
          split at hdeclared
          · rename_i hself
            exact .inl (hself.2 ▸ mem_cons_self)
          · exact .inr (.inl hdeclared)
        · exact .inr (.inr hrep)

end Reads

private theorem announced_of_clean_announceAll {counts : List Bool} {next : Nat}
    (h : Clean (items.mapM (announce scope)) { nextId := next } counts s) :
    items.zip counts = items.map (·, true) ∧ s.Announces (items.filterMap Stmt.valueName?) ∧
      next ≤ s.nextId ∧ (∀ name, s.defs.lookup .variable name = none) ∧
      ∀ name ∈ items.filterMap Stmt.ownName?,
        name ∈ items.filterMap Stmt.valueName? ∨ ¬ s.defs.Undeclared name := by
  obtain ⟨hzip, hgrows, hnames, hheld⟩ := announces_of_clean_announceAll h
  refine ⟨hzip, hnames, hgrows.nextId, fun name => ?_, fun name hname => ?_⟩
  · by_contra hne
    obtain ⟨item, _, hintro⟩ := hgrows.defs.added .variable name rfl hne
    cases Stmt.isValue_of_introduced? hintro
  · obtain ⟨item, hitem, hown⟩ := mem_filterMap.mp hname
    have hitemAnnounced := hheld item hitem
    cases item with
    | varDecl | constDecl => exact .inl (mem_filterMap.mpr ⟨_, hitem, hown⟩)
    | funcDecl =>
      cases hown
      obtain ⟨_, f, _, hf, _⟩ := hitemAnnounced
      exact .inr fun hnew => by simp [hnew .function] at hf
    | event kind =>
      cases kind with
      | custom =>
        cases hown
        exact .inr fun hnew => hitemAnnounced (hnew .event)
      | _ => cases hown
    | _ => cases hown

/-- The items of a clean program are hoisted, and the initializers of the outermost level are run
first. -/
theorem hoists_program {catalog : Catalog} {options : AnalysisOptions} {parsed : Program}
    {out : List Stmt} (hparsed : parsed.Parsed)
    (h : Clean (program { catalog, options } parsed.statements) { nextId := parsed.nextId } out s')
    (hdist : s'.defs.Distinct) :
    ∃ outs assigns, Stmt.HoistsItems s'.types parsed.nextId parsed.statements outs assigns ∧
      out = startupHandler assigns ++ outs ∧
      ∀ before stmt after, assigns = before ++ stmt :: after →
        ∀ name ∈ stmt.reads, s'.defs.lookup .variable name ≠ none →
        name ∈ before.filterMap Stmt.assigned? ∨
            (catalog.reporter? name).isSome ∧ name ∉ parsed.statements.filterMap Stmt.ownName? := by
  obtain ⟨counts, s₁, staged, assigns, s₂, outs, s₃, hcounts, hstaged, houts, hwarned, rfl⟩ :=
    exists_of_clean_program h
  obtain ⟨_, hapart, hanalyzes⟩ := program_analyzes hparsed hcounts hstaged houts hwarned
  have hfound := (hanalyzes.admits hapart
    ⟨catalog, s'.defs, s'.types, (· ∈ resolutions catalog options parsed)⟩
    ⟨rfl, hdist, fun _ _ _ h => h, fun _ _ _ h => h, fun _ _ => rfl⟩ fun _ h => h).1
  refine ⟨outs, assigns, hfound.hoists, rfl, ?_⟩
  intro before stmt after heq name hname hvar
  obtain ⟨hzip, hann, _, hvariables, howns⟩ := announced_of_clean_announceAll hcounts
  rw [hzip] at hstaged
  have hgrows₃ : Grows ⟨fun _ _ => True, fun _ => True⟩ s₂ s₃ :=
    Ends.of_ok (Within.mapM_mem (fun staged _ =>
      within_itemBody (fun _ _ _ => trivial) _ staged fun _ _ _ _ => trivial) s₂) houts.1
  have hgrows : Grows ⟨fun _ _ => True, fun _ => False⟩ s₃ s' :=
    Ends.of_ok (within_warnUnused _ s₃) hwarned.1
  have hkeeps : s₂.defs.Keeps s'.defs := fun kind name decl hdecl =>
    hgrows.defs.kept kind name decl (hgrows₃.defs.kept kind name decl hdecl)
  obtain hbefore | hdeclared | hrep := reads_declareItems rfl hdist
    (fun item hitem => (hparsed.items item hitem).2) hann howns hstaged hkeeps before stmt after heq
    name hname hvar
  · exact .inl hbefore
  · exact absurd (hvariables name) hdeclared
  · exact .inr hrep

end Analyzer

open Analyzer

/-- Where the analysis of a parsed program reports nothing, it returns the program with hoisted
initializers: the items as they were, but for the variables that hold one value, after a handler for
the start of the program that assigns the initializers of the outermost ones in order, if there are
any. What such an initializer reads of the variables of the program has been assigned before it; but
a name that no item declares may be that of a readable property, and a body may declare it as a
variable later. -/
theorem analyze_hoists (catalog : Catalog) (options : AnalysisOptions) (tokens : List Token) :
    let program := (parse tokens).program
    let result := analyze catalog options program
    result.errors = [] →
      ∃ outs assigns, Stmt.HoistsItems result.types program.nextId program.statements outs assigns ∧
        result.program.statements =
          (if assigns = [] then [] else [.event .startup startupEvent none assigns .nowhere 0]) ++
          outs ∧
        ∀ before stmt after, assigns = before ++ stmt :: after →
          ∀ name ∈ stmt.reads, name ∈ result.defs.scalars.keys →
            name ∈ before.filterMap Stmt.assigned? ∨
              (catalog.reporter? name).isSome = true ∧
              name ∉ program.statements.filterMap Stmt.ownName? := by
  intro program result hclean
  have hparsed := parse_parsed tokens
  have hdist : result.defs.Distinct := (wellFormed_analyze catalog options program).distinct
  obtain ⟨s, hrun, _, hdefs, htypes⟩ := clean_of_errors_analyze hclean
  change result.defs = s.defs at hdefs
  change result.types = s.types at htypes
  rw [hdefs] at hdist ⊢
  rw [htypes]
  obtain ⟨outs, assigns, hhoists, heq, hreads⟩ := hoists_program hparsed hrun hdist
  refine ⟨outs, assigns, hhoists, ?_, fun before stmt after hsplit name hname hkey => ?_⟩
  · refine heq.trans ?_
    unfold startupHandler
    simp
  · refine hreads before stmt after hsplit name hname fun hnone => ?_
    exact Definitions.lookup_eq_none_iff.mp hnone hkey

/-- Variables of the outermost level and of a body, with and without initializers, and a list and a
constant between them. -/
def severalInitializers : Source :=
  Source.ofText <| "var speed: number\nvar steps = [1, 2]\nconst base = 4\n" ++
    "var twice = speed + base\nfunc go(size: number):\n  loop 3:\n" ++
    "    var angle = size + twice\n    drive.move(angle)\n" ++ "@start:\n  go(twice)\n"

/-- Two of them are hoisted. -/
theorem analyze_hoists_severalInitializers :
    let parsed := parse (scan "main.bot" severalInitializers).tokens
    let result := analyze Robot.catalog {} parsed.program
    (parsed.errors = [] ∧ result.errors = [] ∧
      result.defs.scalars.keys = ["speed", "twice", "angle"] ∧
      (result.program.statements.flatMap Stmt.initializers).map Stmt.reads =
        [[], ["speed", "base"]]) ∧
    ∃ outs assigns,
      Stmt.HoistsItems result.types parsed.program.nextId parsed.program.statements outs assigns ∧
      result.program.statements = (if assigns = [] then []
        else [.event .startup startupEvent none assigns .nowhere 0]) ++ outs := by
  have hfacts : (let parsed := parse (scan "main.bot" severalInitializers).tokens
      let result := analyze Robot.catalog {} parsed.program
      parsed.errors = [] ∧ result.errors = [] ∧
        result.defs.scalars.keys = ["speed", "twice", "angle"] ∧
        (result.program.statements.flatMap Stmt.initializers).map Stmt.reads =
          [[], ["speed", "base"]]) := by decide +kernel
  have hhoists := analyze_hoists Robot.catalog {} (scan "main.bot" severalInitializers).tokens
  generalize (scan "main.bot" severalInitializers).tokens = tokens at hfacts hhoists ⊢
  obtain ⟨outs, assigns, hitems, heq, _⟩ := hhoists hfacts.2.1
  exact ⟨hfacts, outs, assigns, hitems, heq⟩

/-- An initializer that reads a property, and a body that declares a variable with its name. -/
def timerDeclaredLater : Source :=
  Source.ofText "var x = timer\n@start:\n  var timer = 5\n  display.show(x)\n"

/-- The first assignment of all reads a name that is a variable of the program, which nothing has
assigned before. -/
theorem reads_timerDeclaredLater :
    let result :=
      analyze Robot.catalog {} (parse (scan "main.bot" timerDeclaredLater).tokens).program
    result.errors = [] ∧ result.defs.scalars.keys = ["x", "timer"] ∧
      (result.program.statements.flatMap Stmt.initializers).map Stmt.reads = [["timer"]] := by
  decide +kernel

end BlockScript
