import BlockScript.Source.Span
import BlockScript.Fault.Scan
import BlockScript.Fault.Directive
import BlockScript.Fault.Syntax
import BlockScript.Fault.Analysis
import BlockScript.Fault.Lowering

/-!
# Diagnostics

A diagnostic is a fault at a place of the source, reported as an error or as a warning. The stage of
the compiler that reports it and its wording follow from the fault.
-/

namespace BlockScript

/-- The stages of the compiler that report diagnostics. -/
inductive Stage where
  | scan
  | preprocess
  | parse
  | analyze
  | generate
  deriving DecidableEq

/-- The name of a stage in reports. -/
def Stage.label : Stage → String
  | .scan => "scan"
  | .preprocess => "preprocess"
  | .parse => "parse"
  | .analyze => "analyze"
  | .generate => "generate"

/-- How serious a diagnostic is. -/
inductive Severity where
  | warning
  | error
  deriving DecidableEq

/-- The name of a severity in reports. -/
def Severity.label : Severity → String
  | .warning => "warning"
  | .error => "error"

/-- What a diagnostic is about. -/
inductive Cause where
  | scan (fault : ScanFault)
  | directive (fault : DirectiveFault)
  | parse (fault : SyntaxFault)
  | analysis (fault : AnalysisFault)
  | lowering (fault : LoweringFault)
  deriving DecidableEq

/-- The stage that reports a cause. -/
def Cause.stage : Cause → Stage
  | .scan _ => .scan
  | .directive _ => .preprocess
  | .parse _ => .parse
  | .analysis _ => .analyze
  | .lowering _ => .generate

/-- The wording of a cause. -/
def Cause.message : Cause → String
  | .scan fault => fault.message
  | .directive fault => fault.message
  | .parse fault => fault.message
  | .analysis fault => fault.message
  | .lowering fault => fault.message

/-- A fault at a place of the source. -/
structure Diagnostic where
  /-- What is wrong. -/
  cause : Cause
  /-- Where it is wrong. -/
  span : Span
  /-- How serious it is. -/
  severity : Severity := .error
  /-- The file, once the compilation as a whole reports the diagnostic. -/
  path : Option String := none
  deriving DecidableEq

namespace Diagnostic

/-- The stage that reports a diagnostic. -/
def stage (d : Diagnostic) : Stage := d.cause.stage

/-- The wording of a diagnostic. -/
def message (d : Diagnostic) : String := d.cause.message

/-- Whether a diagnostic is an error. -/
def isError (d : Diagnostic) : Bool := d.severity == .error

/-- The diagnostic as an error. -/
def promote (d : Diagnostic) : Diagnostic := { d with severity := .error }

/-- The diagnostic with the file it belongs to. -/
def inFile (d : Diagnostic) (path : String) : Diagnostic := { d with path := some path }

/-- An error in the text of the file. -/
def scan (fault : ScanFault) (span : Span) : Diagnostic := { cause := .scan fault, span }

/-- An error in a directive. -/
def directive (fault : DirectiveFault) (span : Span) : Diagnostic :=
  { cause := .directive fault, span }

/-- An error of syntax. -/
def parse (fault : SyntaxFault) (span : Span) : Diagnostic := { cause := .parse fault, span }

/-- An error of meaning. -/
def analysis (fault : AnalysisFault) (span : Span) : Diagnostic :=
  { cause := .analysis fault, span }

/-- An error of lowering. -/
def lowering (fault : LoweringFault) (span : Span) : Diagnostic :=
  { cause := .lowering fault, span }

end Diagnostic

end BlockScript
