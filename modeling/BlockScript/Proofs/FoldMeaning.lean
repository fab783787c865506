import BlockScript.Folding.Expression

/-!
# Folding keeps the meaning of expressions

An expression is evaluated where its names have values and where calls of the robot's functions have
results. Evaluation has no result where an operand has none, where operands do not fit, and where a
divisor is zero. If the constants that folding knows have their values, then an expression and its
folded form evaluate alike, and the folded form has the tag of the original.
-/

namespace BlockScript

variable {env : Environment} {e : Expr} {v : Value} {tag : Tag}

/-- What an expression evaluates to: a value, or the results of the items of a list. -/
inductive Result where
  | value (v : Value)
  | list (items : List Result)

namespace Result

/-- The negation of a truth value. -/
def not? : Result → Option Result
  | .value (.boolean b) => some (.value (.boolean !b))
  | _ => none

/-- The result of an operator on two values. -/
def binary? (op : BinaryOp) : Result → Result → Option Result
  | .value l, .value r => (op.eval? l r).map .value
  | _, _ => none

/-- A value converted to a type. -/
def cast? (pictures : Pictures) (target : DataType) : Result → Option Result
  | .value v =>
    match v.cast pictures target with
    | .ok converted => converted.map .value
    | .error _ => none
  | .list _ => none

end Result

/-- Where expressions are evaluated. -/
structure Environment where
  /-- The values of names. -/
  names : String → Option Result
  /-- What the robot returns for a call that is not a known mathematical function. -/
  calls : String → List Result → Option Result
  /-- Where pictures come from. -/
  pictures : Pictures

/-- The result of a call: that of the mathematical function if there is one, else the robot's. -/
def Environment.call (env : Environment) (name : String) (args : List Result) : Option Result :=
  match args with
  | [.value (.number x)] =>
    match mathValue? name x with
    | some y => some (.value (.number y))
    | none => env.calls name args
  | _ => env.calls name args

namespace Expr

mutual

/-- What an expression evaluates to. -/
def eval (env : Environment) : Expr → Option Result
  | .ident _ name => env.names name
  | .literal _ value => some (.value value)
  | .call _ callee args => (evalAll env args).bind (env.call callee)
  | .cast _ target operand => (eval env operand).bind (Result.cast? env.pictures target)
  | .list _ items => (evalAll env items).map .list
  | .not _ operand => (eval env operand).bind Result.not?
  | .binary _ op left right =>
    (eval env left).bind fun l => (eval env right).bind fun r => Result.binary? op l r
  | .group _ inner => eval env inner

/-- What several expressions evaluate to, if all of them have a result. -/
def evalAll (env : Environment) : List Expr → Option (List Result)
  | [] => some []
  | e :: rest => (eval env e).bind fun r => (evalAll env rest).map (r :: ·)

end

private theorem eval_ungrouped (env : Environment) (e : Expr) :
    e.ungrouped.eval env = e.eval env := by
  fun_induction ungrouped e with
  | case1 _ inner ih => rw [ih, eval]
  | case2 => rfl

private theorem eval_of_value? (hvalue : e.value? = some v) : e.eval env = some (.value v) := by
  rw [← eval_ungrouped]
  unfold value? at hvalue
  split at hvalue
  · cases hvalue
    rename_i hungrouped
    rw [hungrouped, eval]
  · cases hvalue

private theorem eval_literalOr {value : Option Value}
    (hvalue : ∀ v, value = some v → e.eval env = some (.value v)) :
    (literalOr tag value e).eval env = e.eval env := by
  cases value with
  | none => rfl
  | some v => rw [literalOr, eval, hvalue v rfl]

private theorem tag_literalOr {value : Option Value} (htag : e.tag = tag) :
    (literalOr tag value e).tag = tag := by
  cases value with
  | none => exact htag
  | some v => rfl

/-- Folding keeps tags. -/
theorem tag_fold (c : FoldContext) (e : Expr) : (e.fold c).tag = e.tag := by
  cases e with
  | literal => rw [fold]
  | list => rw [fold]; rfl
  | _ => rw [fold]; exact tag_literalOr rfl

private theorem castValue?_eval {target : DataType} {operand : Expr}
    (h : castValue? env.pictures target operand.value? = some v) :
    (operand.eval env).bind (Result.cast? env.pictures target) = some (.value v) := by
  obtain ⟨value, hvalue, hcast⟩ := Option.bind_eq_some_iff.mp h
  rw [eval_of_value? hvalue, Option.bind_some, Result.cast?]
  cases hok : value.cast env.pictures target with
  | ok result =>
    have hres : result = some v := by simpa [hok] using hcast
    rw [hres]
    rfl
  | error fault => simp [hok] at hcast

private theorem notValue?_eval {operand : Expr} (h : notValue? operand.value? = some v) :
    (operand.eval env).bind Result.not? = some (.value v) := by
  unfold notValue? at h
  split at h
  · rename_i b hvalue
    cases h
    rw [eval_of_value? hvalue]
    rfl
  · cases h

private theorem binaryValue?_eval {op : BinaryOp} {left right : Expr}
    (h : binaryValue? op left.value? right.value? = some v) :
    ((left.eval env).bind fun l => (right.eval env).bind fun r => Result.binary? op l r) =
    some (.value v) := by
  unfold binaryValue? at h
  split at h
  · rename_i l r hleft hright
    rw [eval_of_value? hleft, eval_of_value? hright, Option.bind_some, Option.bind_some,
      Result.binary?, h]
    rfl
  · cases h

private theorem callValue?_eval {callee : String} {args : List Expr}
    (h : callValue? callee (args.map value?) = some v) :
    (evalAll env args).bind (env.call callee) = some (.value v) := by
  unfold callValue? at h
  split at h
  · rename_i x hargs
    obtain ⟨arg, rest, rfl, hvalue, hrest⟩ := List.map_eq_cons_iff.mp hargs
    obtain rfl := List.map_eq_nil_iff.mp hrest
    obtain ⟨y, hmath, rfl⟩ := Option.map_eq_some_iff.mp h
    rw [evalAll, evalAll, eval_of_value? hvalue]
    simp only [Option.bind_some, Option.map_some, Environment.call, hmath]
  · cases h

variable {env : Environment} {c : FoldContext}

mutual

/-- Folding an expression keeps what it evaluates to, where the names that folding knows have their
values. -/
theorem eval_fold_of_known (hpics : env.pictures = c.pictures)
    (hknown : ∀ name v, c.known? name = some v → env.names name = some (.value v)) :
    ∀ e : Expr, (e.fold c).eval env = e.eval env
  | .ident tag name => by
    rw [fold]
    exact eval_literalOr fun v hv => hknown name v hv
  | .literal _ _ => by rw [fold]
  | .call tag callee args => by
    rw [fold, eval, ← evalAll_foldAll_of_known hpics hknown args]
    exact eval_literalOr fun v hv => by rw [eval]; exact callValue?_eval hv
  | .cast tag target operand => by
    rw [fold, eval, ← eval_fold_of_known hpics hknown operand]
    exact eval_literalOr fun v hv => by
      rw [← hpics] at hv
      rw [eval]
      exact castValue?_eval hv
  | .list tag items => by rw [fold, eval, eval, evalAll_foldAll_of_known hpics hknown items]
  | .not tag operand => by
    rw [fold, eval, ← eval_fold_of_known hpics hknown operand]
    exact eval_literalOr fun v hv => by rw [eval]; exact notValue?_eval hv
  | .binary tag op left right => by
    rw [fold, eval, ← eval_fold_of_known hpics hknown left, ← eval_fold_of_known hpics hknown right]
    exact eval_literalOr fun v hv => by rw [eval]; exact binaryValue?_eval hv
  | .group tag inner => by
    rw [fold, eval, ← eval_fold_of_known hpics hknown inner]
    exact eval_literalOr fun v hv => by rw [eval]; exact eval_of_value? hv

private theorem evalAll_foldAll_of_known (hpics : env.pictures = c.pictures)
    (hknown : ∀ name v, c.known? name = some v → env.names name = some (.value v)) :
    ∀ es : List Expr, evalAll env (foldAll c es) = evalAll env es
  | [] => rfl
  | e :: rest => by
    rw [foldAll, evalAll, evalAll, eval_fold_of_known hpics hknown e,
      evalAll_foldAll_of_known hpics hknown rest]

end

end Expr

/-- **Folding keeps meaning.** Let the names of constants with known values have these values,
except for the names that parameters hide. Then an expression evaluates to the same result, or to
none, before and after it is folded, and it keeps its number and its place. -/
theorem fold_keeps_meaning (c : FoldContext) (env : Environment) (hpics : env.pictures = c.pictures)
    (hconsts : ∀ name constant v, c.defs.constants.get? name = some constant →
      constant.value = some v → name ∉ c.params → env.names name = some (.value v))
    (e : Expr) :
    (e.fold c).eval env = e.eval env ∧ (e.fold c).id = e.id ∧ (e.fold c).span = e.span := by
  have hknown : ∀ name v, c.known? name = some v → env.names name = some (.value v) := by
    intro name v hv
    unfold FoldContext.known? at hv
    split at hv
    · cases hv
    · rename_i hparams
      obtain ⟨constant, hget, hvalue⟩ := Option.bind_eq_some_iff.mp hv
      exact hconsts name constant v hget hvalue (by simpa using hparams)
  refine ⟨Expr.eval_fold_of_known hpics hknown e, ?_, ?_⟩
  · rw [Expr.id, Expr.tag_fold, Expr.id]
  · rw [Expr.span, Expr.tag_fold, Expr.span]

/-- A sum of two names where the first is a constant and the second is both a constant and a
parameter: only the first is folded, and the sum keeps its value. -/
theorem fold_keeps_meaning_hidden_constant :
    let constant (name text : String) : Constant :=
      { name, type := .string, value := some (.string text), span := .nowhere }
    let c : FoldContext :=
      { catalog := .ofLists [] [] [] [] [], types := .empty
        pictures := fun path => .error ⟨path, .missing⟩
        defs := { constants := ⟨[("k", constant "k" "a"), ("p", constant "p" "z")]⟩ }
        params := ["p"] }
    let env : Environment :=
      { names := fun name => some (.value (.string (if name = "k" then "a" else "b")))
        calls := fun _ _ => none
        pictures := c.pictures }
    let e : Expr := .binary ⟨2, .nowhere⟩ .add (.ident ⟨0, .nowhere⟩ "k") (.ident ⟨1, .nowhere⟩ "p")
    (e.fold c).eval env = e.eval env ∧ (e.fold c).id = e.id ∧ (e.fold c).span = e.span := by
  intro constant c env e
  refine fold_keeps_meaning c env rfl ?_ e
  intro name found v hget hvalue hparams
  have hp : ¬ "p" = name := fun h => hparams (by simp [c, h])
  by_cases hk : "k" = name
  · subst hk
    cases hget
    cases hvalue
    rfl
  · simp [c, Table.get?, Table.findEntry, hk, hp] at hget

end BlockScript
