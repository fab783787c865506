import BlockScript.Grammar.Statement
import BlockScript.Typing.Rules

/-!
# Analyzers

An analyzer reads the catalog and the place in the program where it stands, and changes the tables
of definitions and types. It returns a result or fails with a diagnostic; what it recorded before a
failure stays.
-/

namespace BlockScript

/-- Which warnings the analysis gives. -/
structure AnalysisOptions where
  /-- Whether to warn about declarations that are never used. -/
  warnUnused : Bool := true
  /-- Whether to warn about statements that are never run. -/
  warnUnreachable : Bool := true
  deriving DecidableEq

/-- Where in a program an analyzer stands. -/
structure Scope where
  /-- The catalog. -/
  catalog : Catalog
  /-- Which warnings to give. -/
  options : AnalysisOptions
  /-- The function around it. -/
  function : Option String := none
  /-- The variable whose initializer it is in. -/
  declaring : Option String := none

/-- What an analyzer records. -/
structure AnalysisState where
  /-- The next free number for expression nodes. -/
  nextId : Nat
  /-- What is declared so far. -/
  defs : Definitions := {}
  /-- The types found so far. -/
  types : TypeTable := .empty
  /-- The variables and constants of the outermost level that come later, with their places. -/
  pending : Table String Span := .empty
  /-- The errors, the oldest first. -/
  errors : List Diagnostic := []
  /-- The warnings, the oldest first. -/
  warnings : List Diagnostic := []

/-- A step of the analysis. -/
abbrev Analyzer := EStateM Diagnostic AnalysisState

namespace Analyzer

/-- Fails because of a fault at a place. -/
def fail {α : Type} (fault : AnalysisFault) (span : Span) : Analyzer α :=
  throw (.analysis fault span)

/-- Adds an error and goes on. -/
def report (d : Diagnostic) : Analyzer Unit :=
  modify fun s => { s with errors := s.errors ++ [d] }

/-- Adds the error of a fault at a place and goes on. -/
def reportFault (fault : AnalysisFault) (span : Span) : Analyzer Unit :=
  report (.analysis fault span)

/-- Adds a warning. -/
def warn (fault : AnalysisFault) (span : Span) : Analyzer Unit :=
  let warning := { Diagnostic.analysis fault span with severity := .warning }
  modify fun s => { s with warnings := s.warnings ++ [warning] }

/-- Runs an analyzer. If it fails, its diagnostic is reported and there is no result. -/
def reporting {α : Type} (a : Analyzer α) : Analyzer (Option α) := fun s =>
  match a s with
  | .ok result s => .ok (some result) s
  | .error d s => .ok none { s with errors := s.errors ++ [d] }

/-- What is declared so far. -/
def defs : Analyzer Definitions := do
  return (← get).defs

/-- Changes the definitions. -/
def define (change : Definitions → Definitions) : Analyzer Unit :=
  modify fun s => { s with defs := change s.defs }

/-- Records the type of a node. -/
def recordType (id : Nat) (type : DataType) : Analyzer Unit :=
  modify fun s => { s with types := s.types.insert id type }

end Analyzer

/-- The function around a scope. -/
def Scope.function? (scope : Scope) (d : Definitions) : Option Function :=
  scope.function.bind d.functions.get?

/-- The parameter of the function around a scope that a name denotes. -/
def Scope.param? (scope : Scope) (d : Definitions) (name : String) : Option FunctionParam :=
  (scope.function? d).bind (·.param? name)

end BlockScript
