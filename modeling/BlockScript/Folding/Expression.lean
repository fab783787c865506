import BlockScript.Evaluation
import BlockScript.Typing.Rules

/-!
# Folding of expressions

Folding replaces every part of an expression whose value is known by a literal. A node is folded
after the nodes below it, and keeps its tag. The faults of an expression are found on the folded
parts: divisions by zero, conversions that cannot succeed, and arguments that should be known or
that are not among the options of their parameter.
-/

namespace BlockScript

/-- A fault found by folding. -/
structure Finding where
  /-- The fault and its place. -/
  diagnostic : Diagnostic
  /-- Whether it is passed over where an equal one has been found before. -/
  once : Bool := false

/-- A finding of a fault at a place. -/
def Finding.always (fault : AnalysisFault) (span : Span) : Finding := ⟨.analysis fault span, false⟩

/-- What folding looks up. -/
structure FoldContext where
  /-- The catalog. -/
  catalog : Catalog
  /-- The types of expressions. -/
  types : TypeTable
  /-- Where pictures come from. -/
  pictures : Pictures
  /-- What the program declares, with the values found so far. -/
  defs : Definitions
  /-- The names of the parameters of the function around; they hide constants. -/
  params : List String := []

namespace FoldContext

/-- The known value of a name. -/
def known? (c : FoldContext) (name : String) : Option Value :=
  if c.params.contains name then none else (c.defs.constants.get? name).bind (·.value)

/-- The recorded types of expressions, if all have one. -/
def typesOf? (c : FoldContext) (es : List Expr) : Option (List DataType) :=
  es.mapM fun e => c.types.get? e.id

/-- The signature of a call with these arguments. -/
def signature? (c : FoldContext) (table : Table String Builtin) (name : String) (args : List Expr) :
    Option Signature :=
  (table.get? name).bind fun b => (c.typesOf? args).bind b.resolve

/-- The options of a parameter, checked again now that more values are known. -/
def optionFindings (c : FoldContext) (callee : String) (spec : ParamSpec) (arg : Expr) :
    List Finding :=
  (optionFault? c.defs callee spec arg).toList.map (⟨·, true⟩)

/-- Checks a folded argument: a field takes known values only. -/
def argumentFindings (c : FoldContext) (callee : String) (spec : ParamSpec) (arg : Expr) :
    List Finding :=
  match spec.slot, arg.value? with
  | .field _, none => [.always (.argumentUnknown spec.name callee) arg.span]
  | _, _ => c.optionFindings callee spec arg

/-- Checks the folded arguments of a call. -/
def argumentsFindings (c : FoldContext) (callee : String) (signature : Signature)
    (args : List Expr) : List Finding :=
  (signature.params.zip args).flatMap fun (spec, arg) => c.argumentFindings callee spec arg

/-- Checks a call of an entry of the catalog with folded arguments. -/
def callFindings (c : FoldContext) (table : Table String Builtin) (name : String)
    (args : List Expr) : List Finding :=
  match c.signature? table name args with
  | some signature => c.argumentsFindings name signature args
  | none => []

/-- Checks the cast of a folded operand. -/
def castFindings (c : FoldContext) (target : DataType) (operand : Expr) : List Finding :=
  match operand.value? with
  | none => if target = .image then [.always .picturePathUnknown operand.span] else []
  | some value =>
    match value.cast c.pictures target with
    | .ok _ => []
    | .error fault => [.always fault operand.span]

/-- Checks an operation on a folded right operand. -/
def binaryFindings (op : BinaryOp) (right : Expr) (span : Span) : List Finding :=
  match op.zeroFault? with
  | some fault => if right.value?.any Value.isZero then [.always fault span] else []
  | none => []

end FoldContext

namespace Expr

/-- A literal in place of a node whose value is known, else the node. -/
def literalOr (tag : Tag) (value : Option Value) (e : Expr) : Expr :=
  match value with
  | some value => .literal tag value
  | none => e

/-- The value of a cast of a value that may be known. -/
def castValue? (pictures : Pictures) (target : DataType) (operand : Option Value) : Option Value :=
  operand.bind fun value =>
    match value.cast pictures target with
    | .ok result => result
    | .error _ => none

/-- The value of the negation of a value that may be known. -/
def notValue? : Option Value → Option Value
  | some (.boolean b) => some (.boolean !b)
  | _ => none

/-- The value of an operation on values that may be known. -/
def binaryValue? (op : BinaryOp) : Option Value → Option Value → Option Value
  | some l, some r => op.eval? l r
  | _, _ => none

mutual

/-- An expression with literals in place of all parts whose values are known. -/
def fold (c : FoldContext) : Expr → Expr
  | .ident tag name => literalOr tag (c.known? name) (.ident tag name)
  | .literal tag value => .literal tag value
  | .call tag callee args =>
    let args := foldAll c args
    literalOr tag (callValue? callee (args.map value?)) (.call tag callee args)
  | .cast tag target operand =>
    let operand := fold c operand
    literalOr tag (castValue? c.pictures target operand.value?) (.cast tag target operand)
  | .list tag items => .list tag (foldAll c items)
  | .not tag operand =>
    let operand := fold c operand
    literalOr tag (notValue? operand.value?) (.not tag operand)
  | .binary tag op left right =>
    let left := fold c left
    let right := fold c right
    literalOr tag (binaryValue? op left.value? right.value?) (.binary tag op left right)
  | .group tag inner =>
    let inner := fold c inner
    literalOr tag inner.value? (.group tag inner)

/-- Several expressions, folded. -/
def foldAll (c : FoldContext) : List Expr → List Expr
  | [] => []
  | e :: rest => fold c e :: foldAll c rest

end

mutual

/-- The faults that folding an expression finds, those of inner parts first. -/
def findings (c : FoldContext) : Expr → List Finding
  | .ident _ _ | .literal _ _ => []
  | .call _ callee args =>
    findingsAll c args ++ c.callFindings c.catalog.functions callee (foldAll c args)
  | .cast _ target operand => findings c operand ++ c.castFindings target (fold c operand)
  | .list _ items => findingsAll c items
  | .not _ operand => findings c operand
  | .binary tag op left right =>
    findings c left ++ findings c right ++ FoldContext.binaryFindings op (fold c right) tag.span
  | .group _ inner => findings c inner

/-- The faults that folding several expressions finds. -/
def findingsAll (c : FoldContext) : List Expr → List Finding
  | [] => []
  | e :: rest => findings c e ++ findingsAll c rest

end

end Expr

end BlockScript
