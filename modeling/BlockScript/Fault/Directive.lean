/-!
# Faults of directives

What can be wrong with the lines that define macros and choose regions.
-/

namespace BlockScript

/-- What can be wrong with a directive. -/
inductive DirectiveFault where
  /-- A directive that needs the name of a macro has none. -/
  | missingName (directive : String)
  /-- A macro is defined again; the line of its definition is unknown if it came from the
  configuration. -/
  | redefined (name : String) (line : Option Nat)
  | unknown (directive : String)
  /-- A skipped region has no end. -/
  | missingEnd (opener : String)
  deriving DecidableEq

/-- The wording of a fault. -/
def DirectiveFault.message : DirectiveFault → String
  | .missingName directive => s!"Expected a macro name after #{directive}"
  | .redefined name line =>
    let previous := match line with
      | some n => s!"line {n}"
      | none => "configuration"
    s!"Macro '{name}' redefined (previously defined at {previous})"
  | .unknown directive => s!"Unknown directive '#{directive}'"
  | .missingEnd opener => s!"Missing #endif for {opener}"

end BlockScript
