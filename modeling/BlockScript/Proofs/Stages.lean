import BlockScript.Compilation
import BlockScript.Proofs.Faultless

/-!
# Stages of a compilation

What every stage makes of a source, whatever the others find. A compilation that succeeds has gone
through all stages without an error. Lowering adds none to what the stages before it report: a
program that they let pass is lowered as a whole.
-/

namespace BlockScript

open List

variable {path : String} {catalog : Catalog} {pictures : Pictures} {st : Stages} {program : Program}
  {options : AnalysisOptions} {defs : Definitions} {diagnostics : List Diagnostic}
  {types : TypeTable} {α : Type}

/-- A result that is tested is there. -/
theorem exists_of_toOption_any {ε : Type} {x : Except ε α} {p : α → Bool}
    (h : x.toOption.any p) : ∃ a, x = .ok a ∧ p a := by
  cases x with
  | error e => cases h
  | ok a => exact ⟨a, rfl, h⟩

/-- What the stages of a compilation make of a source that can be scanned. -/
structure Stages where
  expansion : Expansion
  parsed : Parsed
  analysis : Analysis
  folding : Folding
  lowering : Lowering

/-- Runs all stages, also those after an error. -/
def Stages.ofTokens (catalog : Catalog) (pictures : Pictures) (options : AnalysisOptions)
    (macros : Macros) (tokens : List Token) : Stages :=
  let expansion := macros.expand tokens
  let parsed := parse expansion.tokens
  let analysis := analyze catalog options parsed.program
  let folding := analysis.program.fold catalog analysis.types pictures analysis.defs
  let lowering := folding.program.lower catalog analysis.types folding.defs
  { expansion, parsed, analysis, folding, lowering }

/-- Scans a source and runs all stages on its tokens. -/
def stagesOf (path : String) (catalog : Catalog) (pictures : Pictures) (defines : List String)
    (options : AnalysisOptions) (source : Source) : Except Diagnostic Stages :=
  (scanSource path defines source).map fun p => .ofTokens catalog pictures options p.1 p.2

/-- What the stages before the lowering report. -/
def Stages.reported (st : Stages) : List Diagnostic :=
  st.expansion.diagnostics ++ st.parsed.errors ++ st.analysis.errors ++ st.folding.errors

/-- Whether the stages before the lowering report no error. -/
def Stages.Clean (st : Stages) : Prop := ∀ d ∈ st.reported, d.isError = false

instance (st : Stages) : Decidable st.Clean := inferInstanceAs (Decidable (∀ d ∈ st.reported, _))

/-- The stages of a source. -/
theorem stagesOf_eq_ok_iff {defines : List String} {source : Source} :
    stagesOf path catalog pictures defines options source = .ok st ↔
      ∃ macros tokens, scanSource path defines source = .ok (macros, tokens) ∧
        Stages.ofTokens catalog pictures options macros tokens = st := by
  unfold stagesOf
  cases scanSource path defines source with
  | error d => simp [Except.map]
  | ok p =>
    obtain ⟨macros, tokens⟩ := p
    simp [Except.map]

/-- What folding reports are errors. -/
theorem Program.isError_of_mem_fold {d : Diagnostic}
    (hd : d ∈ (program.fold catalog types pictures defs).errors) : d.isError :=
  ((prunedAll_fold (P := fun _ => True) (Stmt.allOf_true program.statements)).2.1 d hd).1

private theorem Stmt.Pruned.scriptHead?_eq {stmt out : Stmt} (h : stmt.Pruned out) :
    out.scriptHead? = stmt.scriptHead? := by
  cases h <;> rfl

private theorem Stmt.PrunedAll.scriptHeads_eq {stmts outs : List Stmt} (h : PrunedAll stmts outs) :
    outs.filterMap scriptHead? = stmts.filterMap scriptHead? := by
  induction stmts generalizing outs with
  | nil =>
    cases h
    rfl
  | cons stmt rest ih =>
    cases h with | cons hfirst hrest =>
    rw [filterMap_cons, filterMap_cons, hfirst.scriptHead?_eq, ih hrest]

/-- Folding keeps the scripts. -/
theorem Program.scriptHeads_fold :
    (program.fold catalog types pictures defs).program.scriptHeads = program.scriptHeads :=
  (prunedAll_fold (P := fun _ => True) (Stmt.allOf_true program.statements)).1.scriptHeads_eq

private theorem eq_nil_of_isError
    (herrs : ∀ d ∈ diagnostics, d.isError) (hnone : ∀ d ∈ diagnostics, d.isError = false) :
    diagnostics = [] := by
  refine eq_nil_iff_forall_not_mem.mpr fun d hd => ?_
  have := herrs d hd
  rw [hnone d hd] at this
  cases this

namespace Stages

variable {catalog : Catalog} {pictures : Pictures} {options : AnalysisOptions} {macros : Macros}
  {tokens : List Token}

/-- Analysis and folding find nothing in a program that is let pass. -/
theorem Clean.errors_eq_nil (h : (ofTokens catalog pictures options macros tokens).Clean) :
    (ofTokens catalog pictures options macros tokens).analysis.errors = [] ∧
      (ofTokens catalog pictures options macros tokens).folding.errors = [] := by
  unfold Clean reported at h
  rw [forall_mem_append, forall_mem_append] at h
  exact ⟨eq_nil_of_isError (grows_analyze _ _ _).2 h.1.2,
    eq_nil_of_isError (fun d hd => Program.isError_of_mem_fold hd) h.2⟩

/-- A program that is let pass is accepted, and folding finds nothing in it. -/
theorem Clean.accepts (hcomp : catalog.Complete)
    (h : (ofTokens catalog pictures options macros tokens).Clean) :
    (finished catalog options (parse (macros.expand tokens).tokens).program).Accepts
        (ofTokens catalog pictures options macros tokens).analysis.program.statements ∧
      (ofTokens catalog pictures options macros tokens).folding.errors = [] :=
  ⟨finished_accepts (parse_parsed _) hcomp.start h.errors_eq_nil.1, h.errors_eq_nil.2⟩

/-- Clean stages have no fault. -/
theorem Clean.lowering_errors (hcomp : catalog.Complete)
    (h : (ofTokens catalog pictures options macros tokens).Clean) :
    (ofTokens catalog pictures options macros tokens).lowering.errors = [] := by
  obtain ⟨hacc, hfolding⟩ := h.accepts hcomp
  exact hacc.lower_errors pictures hfolding hcomp

/-- The parameters of a program that is let pass have inputs of their own. -/
theorem Clean.inputsApart (hcomp : catalog.Complete)
    (hinputs : ∀ s ∈ catalog.signatures, s.inputs.Nodup)
    (hst : st = ofTokens catalog pictures options macros tokens) (h : st.Clean) :
    LowerContext.InputsApart { defs := st.folding.defs, types := st.analysis.types, catalog } := by
  subst hst
  obtain ⟨hacc, hfolding⟩ := h.accepts hcomp
  have hready := hacc.ready_fold pictures hfolding
  refine ⟨hinputs, fun name f hget => ?_⟩
  have hkept := congrFun (congrFun hready.valued.lookup .function) name
  have hlook := hkept.symm.trans (Definitions.lookup_function hget)
  have hnodup := hacc.paramsApart name _ hlook
  exact hnodup

/-- A program that is let pass becomes a forest with one script for each handler and function. -/
theorem Clean.isForest (hcomp : catalog.Complete)
    (hinputs : ∀ s ∈ catalog.signatures, s.inputs.Nodup)
    (hst : st = ofTokens catalog pictures options macros tokens) (h : st.Clean) :
    st.lowering.graph.IsForest ∧ List.Forall₂ (st.lowering.graph.Begins catalog st.folding.defs)
      st.analysis.program.scriptHeads st.lowering.graph.tops := by
  have hapart := h.inputsApart hcomp hinputs hst
  subst hst
  have hforest := Program.lower_isForest hapart (h.lowering_errors hcomp)
  rwa [Program.scriptHeads_fold] at hforest

end Stages

namespace Collected

variable {c : Collected}

/-- Only errors are counted. -/
theorem errors_add_eq_nil_iff :
    (c.add diagnostics).errors = [] ↔ c.errors = [] ∧ ∀ d ∈ diagnostics, d.isError = false := by
  simp [add]

/-- Checks pass without errors. -/
theorem check_bind_eq_ok_iff {lines : List String} {next : Unit → Except CompileFailure α}
    {result : α} :
    (c.check path lines >>= next) = .ok result ↔ c.errors = [] ∧ next () = .ok result := by
  unfold check
  cases c.errors with
  | nil => simp [bind, Except.bind]
  | cons d rest => simp [bind, Except.bind]

end Collected

/-- A compilation that succeeds has found no error on any stage, and its result is what the last
stages made. -/
theorem stages_of_compile {options : CompileOptions} {source : Source} {result : Compilation}
    (h : compile path catalog pictures options source = .ok result) :
    ∃ st, stagesOf path catalog pictures options.defines options.analysis source = .ok st ∧
    st.Clean ∧
      result.graph = st.lowering.graph ∧ result.defs = st.folding.defs := by
  unfold compile at h
  dsimp only at h
  cases hscan : scanSource path options.defines source with
  | error d =>
    rw [hscan] at h
    cases h
  | ok p =>
    rw [hscan] at h
    obtain ⟨macros, tokens⟩ := p
    simp only [Collected.check_bind_eq_ok_iff, Collected.errors_add_eq_nil_iff, forall_mem_append]
      at h
    obtain ⟨⟨-, hexp, hparsed⟩, ⟨-, -, hana⟩, ⟨-, hfolding⟩, -, hres⟩ := h
    refine ⟨_, stagesOf_eq_ok_iff.mpr ⟨macros, tokens, hscan, rfl⟩, ?_, ?_⟩
    · unfold Stages.Clean Stages.reported
      rw [forall_mem_append, forall_mem_append, forall_mem_append]
      exact ⟨⟨⟨hexp, hparsed⟩, hana⟩, hfolding⟩
    · rw [← Except.ok.inj hres]
      exact ⟨rfl, rfl⟩

/-- Lowering never fails on a program for the robot that the other stages let pass: for every source
and all macros that are defined before it, if no stage before the lowering reports an error, then
lowering reports none. -/
theorem lowering_errors_eq_nil {path : String} {pictures : Pictures} {defines : List String}
    {options : AnalysisOptions} {source : Source} {st : Stages}
    (hstages : stagesOf path Robot.catalog pictures defines options source = .ok st)
    (hclean : st.Clean) : st.lowering.errors = [] := by
  obtain ⟨macros, tokens, _, rfl⟩ := stagesOf_eq_ok_iff.mp hstages
  exact hclean.lowering_errors Robot.complete

/-- A program with a macro, a constant, a variable, a function and a handler. -/
def pacedCount : Source :=
  Source.ofText <|
    "const step = PAUSE + 1\nvar sum = 0\nfunc add(n: number):\n  sum += n * step\n" ++
    "@button \"a\":\n  add(timer)\n"

/-- It is lowered without errors. -/
theorem lowering_errors_pacedCount : ∃ st,
    stagesOf "main.bot" Robot.catalog noPictures ["PAUSE=2"] {} pacedCount = .ok st ∧ st.Clean ∧
      st.lowering.errors = [] := by
  have hany : (stagesOf "main.bot" Robot.catalog noPictures ["PAUSE=2"] {} pacedCount).toOption.any
      (decide ·.Clean) = true := by decide +kernel
  obtain ⟨st, hstages, hclean⟩ := exists_of_toOption_any hany
  have hclean : st.Clean := of_decide_eq_true hclean
  exact ⟨st, hstages, hclean, lowering_errors_eq_nil hstages hclean⟩

/-- The blocks of every program that is compiled for the robot are a forest. Its scripts are those
of the handlers and functions of the analyzed program, in their order. -/
theorem compile_isForest {path : String} {pictures : Pictures} {options : CompileOptions}
    {source : Source} {result : Compilation}
    (h : compile path Robot.catalog pictures options source = .ok result) :
    ∃ st, stagesOf path Robot.catalog pictures options.defines options.analysis source = .ok st ∧
      result.graph.IsForest ∧
      List.Forall₂ (result.graph.Begins Robot.catalog result.defs)
        st.analysis.program.scriptHeads result.graph.tops := by
  obtain ⟨st, hstages, hclean, hgraph, hdefs⟩ := stages_of_compile h
  obtain ⟨macros, tokens, _, hst⟩ := stagesOf_eq_ok_iff.mp hstages
  rw [hgraph, hdefs]
  exact ⟨st, hstages, hclean.isForest Robot.complete Robot.nodup_inputs hst.symm⟩

/-- It becomes three scripts. -/
theorem compile_isForest_pacedCount : ∃ result st,
    compile "main.bot" Robot.catalog noPictures { defines := ["PAUSE=2"] } pacedCount = .ok result ∧
      stagesOf "main.bot" Robot.catalog noPictures ["PAUSE=2"] {} pacedCount = .ok st ∧
      result.graph.tops.length = 3 ∧ result.graph.IsForest ∧
      List.Forall₂ (result.graph.Begins Robot.catalog result.defs)
        st.analysis.program.scriptHeads result.graph.tops := by
  have hany : (compile "main.bot" Robot.catalog noPictures { defines := ["PAUSE=2"] }
      pacedCount).toOption.any (·.graph.tops.length == 3) = true := by decide +kernel
  obtain ⟨result, hres, hlen⟩ := exists_of_toOption_any hany
  obtain ⟨st, hstages, hforest, hbeg⟩ := compile_isForest hres
  exact ⟨result, st, hres, hstages, beq_iff_eq.mp hlen, hforest, hbeg⟩

end BlockScript
