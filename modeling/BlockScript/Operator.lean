/-!
# Operators

The binary operators of expressions, after `<=`, `>=` and `!=` have been spelled out with them, and
the operators of assignments.
-/

namespace BlockScript

/-- A binary operator of expressions. -/
inductive BinaryOp where
  | add | sub | mul | div | mod | lt | gt | eq | and | or
  deriving DecidableEq, Inhabited

/-- How an operator is written. -/
def BinaryOp.spelling : BinaryOp → String
  | .add => "+"
  | .sub => "-"
  | .mul => "*"
  | .div => "/"
  | .mod => "%"
  | .lt => "<"
  | .gt => ">"
  | .eq => "=="
  | .and => "and"
  | .or => "or"

/-- The operator of an assignment. -/
inductive AssignOp where
  | set | add | sub | mul | div | mod
  deriving DecidableEq, Inhabited

/-- How an assignment is written. -/
def AssignOp.spelling : AssignOp → String
  | .set => "="
  | .add => "+="
  | .sub => "-="
  | .mul => "*="
  | .div => "/="
  | .mod => "%="

/-- The operator that a compound assignment applies; a plain one applies none. -/
def AssignOp.binary? : AssignOp → Option BinaryOp
  | .set => none
  | .add => some .add
  | .sub => some .sub
  | .mul => some .mul
  | .div => some .div
  | .mod => some .mod

end BlockScript
