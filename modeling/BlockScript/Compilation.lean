import BlockScript.Catalog.Robot
import BlockScript.Folding.Program
import BlockScript.Lowering.Program
import BlockScript.Macro
import BlockScript.Typing.Analysis

/-!
# Compilation

A source is scanned, its macros are expanded, and it is parsed, analyzed, folded and lowered. Every
stage reports all the problems that it finds, and the first stage that reports an error is the last
one to run; expansion and parsing count as one.
-/

namespace BlockScript

/-- How to compile. -/
structure CompileOptions where
  /-- The macros that are defined before the first line, as `NAME` or `NAME=VALUE`. -/
  defines : List String := []
  /-- Which warnings to give. -/
  analysis : AnalysisOptions := {}
  /-- Whether a warning is as bad as an error. -/
  warningsAsErrors : Bool := false
  deriving DecidableEq

/-- A program that has been compiled. -/
structure Compilation where
  /-- The blocks. -/
  graph : Graph
  /-- What the program declares. -/
  defs : Definitions
  /-- The warnings. -/
  warnings : List Diagnostic
  /-- The lines of the source. -/
  lines : List String

/-- A program that could not be compiled. -/
structure CompileFailure where
  /-- The errors. -/
  errors : List Diagnostic
  /-- The warnings. -/
  warnings : List Diagnostic
  /-- The lines of the source, as far as they were read. -/
  lines : List String

/-- The wording of a failure. -/
def CompileFailure.message (f : CompileFailure) : String :=
  "compilation failed with " ++ toString f.errors.length ++ " error(s)"

/-- The diagnostics of all stages so far. -/
structure Collected where
  /-- The diagnostics that make a compilation fail, in the order of the stages. -/
  errors : List Diagnostic := []
  /-- The diagnostics that do not. -/
  warnings : List Diagnostic := []

namespace Collected

/-- Adds diagnostics, each by its severity. -/
def add (c : Collected) (diagnostics : List Diagnostic) : Collected :=
  { errors := c.errors ++ diagnostics.filter (·.isError)
    warnings := c.warnings ++ diagnostics.filter (!·.isError) }

/-- Makes errors of all warnings. -/
def strict (c : Collected) : Collected :=
  { errors := c.errors ++ c.warnings.map (·.promote) }

/-- Stops if there is an error. -/
def check (c : Collected) (path : String) (lines : List String) : Except CompileFailure Unit :=
  if c.errors.isEmpty then .ok ()
  else .error ⟨c.errors.map (·.inFile path), c.warnings.map (·.inFile path), lines⟩

end Collected

/-- Scans a source and defines the macros that come before it. -/
def scanSource (path : String) (defines : List String) (source : Source) :
    Except Diagnostic (Macros × List Token) :=
  let scanned := scan path source
  match scanned.fault with
  | some d => .error d
  | none => (Macros.predefined defines).map (·, scanned.tokens)

/-- Compiles a source. -/
def compile (path : String) (catalog : Catalog) (pictures : Pictures) (options : CompileOptions)
    (source : Source) : Except CompileFailure Compilation :=
  let lines := (scan path source).lines
  match scanSource path options.defines source with
  | .error d => .error ⟨[d.inFile path], [], lines⟩
  | .ok (macros, tokens) => do
    let expansion := macros.expand tokens
    let parsed := parse expansion.tokens
    let collected := Collected.add {} (expansion.diagnostics ++ parsed.errors)
    collected.check path lines
    let analysis := analyze catalog options.analysis parsed.program
    let collected := collected.add (analysis.warnings ++ analysis.errors)
    collected.check path lines
    let folding := analysis.program.fold catalog analysis.types pictures analysis.defs
    let collected := collected.add folding.errors
    collected.check path lines
    let lowering := folding.program.lower catalog analysis.types folding.defs
    let collected := collected.add lowering.errors
    let collected := if options.warningsAsErrors then collected.strict else collected
    collected.check path lines
    return ⟨lowering.graph, folding.defs, collected.warnings.map (·.inFile path), lines⟩

/-- The place where no picture is found. -/
def noPictures : Pictures := fun path => .error ⟨path, .missing⟩

/-- Compiles a text for the robot, without options. -/
def compileText (pictures : Pictures) (text : String) : Except CompileFailure Compilation :=
  compile inputPath Robot.catalog pictures {} (Source.ofText text)

end BlockScript
