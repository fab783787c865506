import BlockScript.Value

/-!
# Faults of lowering

Why a program cannot be laid out as blocks. A program that analysis and folding accept has none of
them, so each of them is reported as an internal error.
-/

namespace BlockScript

/-- Why a program cannot be laid out as blocks. -/
inductive LoweringFault where
  | undeclaredEvent (name : String)
  | undeclaredFunction (name : String)
  | noHat (name : String)
  | unknownStatement (name : String)
  | unknownFunction (name : String)
  | unknownTarget (name : String)
  | unreadableTarget (name : String)
  | untypedArguments (name : String)
  | noOverload (name : String) (given : List DataType)
  | argumentNotFolded (parameter callee : String)
  | argumentNotList (parameter callee : String)
  | noValueInput (opcode : String)
  | looseList
  | unresolvedName (name : String)
  | untyped
  deriving DecidableEq

/-- What is wrong, in words. -/
def LoweringFault.detail : LoweringFault → String
  | .undeclaredEvent name => s!"event '{name}' was never declared"
  | .undeclaredFunction name => s!"function '{name}' was never declared"
  | .noHat name => s!"no hat block for '@{name}'"
  | .unknownStatement name => s!"unknown statement '{name}'"
  | .unknownFunction name => s!"unknown function '{name}'"
  | .unknownTarget name => s!"unknown assignment target '{name}'"
  | .unreadableTarget name => s!"'{name}' cannot be read back"
  | .untypedArguments name => s!"arguments of '{name}' were never typed"
  | .noOverload name given => s!"no overload of '{name}' accepts " ++ describeTypes given
  | .argumentNotFolded parameter callee => s!"argument '{parameter}' of {callee} was not folded"
  | .argumentNotList parameter callee => s!"argument '{parameter}' of {callee} is not a list"
  | .noValueInput opcode => s!"'{opcode}' has no value input"
  | .looseList => "list literal outside a list declaration"
  | .unresolvedName name => s!"unresolved name '{name}'"
  | .untyped => "expression was never typed"

/-- The wording of a fault. -/
def LoweringFault.message (f : LoweringFault) : String := "Internal error: " ++ f.detail

end BlockScript
