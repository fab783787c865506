import BlockScript.Grammar.Statement

/-!
# Retagging

Two programs may differ in nothing but the numbers of their expression nodes and the places they
were read from. Such a difference is a change of marks: a function on the tags of expressions, one
on the places of statements and one on the lines where they end. Without any marks only the bare
program is left.
-/

namespace BlockScript

/-- The tag that says nothing. -/
def Tag.blank : Tag := ⟨0, .nowhere⟩

namespace Expr

mutual

/-- An expression with its tags changed. -/
def retag (f : Tag → Tag) : Expr → Expr
  | .ident tag name => .ident (f tag) name
  | .literal tag value => .literal (f tag) value
  | .call tag callee args => .call (f tag) callee (retagAll f args)
  | .cast tag target operand => .cast (f tag) target (retag f operand)
  | .list tag items => .list (f tag) (retagAll f items)
  | .not tag operand => .not (f tag) (retag f operand)
  | .binary tag op left right => .binary (f tag) op (retag f left) (retag f right)
  | .group tag inner => .group (f tag) (retag f inner)

/-- Several expressions with their tags changed. -/
def retagAll (f : Tag → Tag) : List Expr → List Expr
  | [] => []
  | e :: rest => retag f e :: retagAll f rest

end

variable (f : Tag → Tag)

/-- All expressions are retagged. -/
@[simp] theorem retagAll_eq_map (es : List Expr) : retagAll f es = es.map (retag f) := by
  induction es with
  | nil => rfl
  | cons e rest ih => rw [retagAll, ih, List.map_cons]

/-- The tag is changed. -/
@[simp] theorem tag_retag (e : Expr) : (e.retag f).tag = f e.tag := by
  cases e <;> rfl

mutual

private theorem retag_of_forall {f : Tag → Tag} (hf : ∀ tag, f tag = tag) :
    ∀ e : Expr, e.retag f = e
  | .ident tag name => by rw [retag, hf]
  | .literal tag value => by rw [retag, hf]
  | .call tag callee args | .list tag args => by rw [retag, hf, retagAll_of_forall hf args]
  | .cast tag target operand | .not tag operand | .group tag operand => by
    rw [retag, hf, retag_of_forall hf operand]
  | .binary tag op left right => by
    rw [retag, hf, retag_of_forall hf left, retag_of_forall hf right]

private theorem retagAll_of_forall {f : Tag → Tag} (hf : ∀ tag, f tag = tag) :
    ∀ es : List Expr, retagAll f es = es
  | [] => rfl
  | e :: rest => by rw [retagAll, retag_of_forall hf e, retagAll_of_forall hf rest]

end

/-- An expression without its tags. -/
def bare (e : Expr) : Expr := e.retag fun _ => .blank

section Bare

variable (tag : Tag)

/-- A bare call. -/
@[simp] theorem bare_call (callee : String) (args : List Expr) :
    (call tag callee args).bare = .call .blank callee (args.map bare) := by
  rw [bare, retag, retagAll_eq_map]
  rfl

/-- A bare list. -/
@[simp] theorem bare_list (items : List Expr) :
    (list tag items).bare = .list .blank (items.map bare) := by
  rw [bare, retag, retagAll_eq_map]
  rfl

end Bare

mutual

/-- A copy differs from the original in the numbers of its nodes only. -/
theorem retag_copy {f : Tag → Tag} (hf : ∀ tag id, f { tag with id } = f tag) (next : Nat) :
    ∀ e : Expr, (e.copy next).1.retag f = e.retag f
  | .ident tag name => by simp [copy, retag, hf]
  | .literal tag value => by simp [copy, retag, hf]
  | .call tag callee args | .list tag args => by
    have hargs := retag_copyAll hf next args
    simp only [copy, retag, hf, retagAll_eq_map, hargs]
  | .cast tag target operand | .not tag operand | .group tag operand => by
    simp only [copy, retag, hf, retag_copy hf next operand]
  | .binary tag op left right => by
    simp only [copy, retag, hf, retag_copy hf next left, retag_copy hf _ right]

private theorem retag_copyAll {f : Tag → Tag} (hf : ∀ tag id, f { tag with id } = f tag)
    (next : Nat) : ∀ es : List Expr, (copyAll next es).1.map (retag f) = es.map (retag f)
  | [] => rfl
  | e :: rest => by
    simp only [copyAll, List.map_cons, retag_copy hf next e, retag_copyAll hf _ rest]

end

end Expr

/-- A change of marks. -/
structure Relabeling where
  /-- What becomes of the tags of expressions. -/
  tag : Tag → Tag
  /-- What becomes of places. -/
  span : Span → Span
  /-- What becomes of the lines where items end. -/
  line : Nat → Nat

/-- Whether a change of marks changes nothing. -/
structure Relabeling.Keeps (r : Relabeling) : Prop where
  tag : ∀ tag, r.tag tag = tag
  span : ∀ span, r.span span = span
  line : ∀ line, r.line line = line

/-- A parameter with its place changed. -/
def Parameter.relabel (r : Relabeling) (p : Parameter) :
    Parameter := { p with span := r.span p.span }

/-- The header of a loop with its marks changed. -/
def LoopKind.relabel (r : Relabeling) : LoopKind → LoopKind
  | .forever => .forever
  | .times count => .times (count.retag r.tag)
  | .until condition => .until (condition.retag r.tag)

namespace Stmt

mutual

/-- A statement with its marks changed. -/
def relabel (r : Relabeling) : Stmt → Stmt
  | .varDecl name type value hoisted span =>
    .varDecl name type (value.map (Expr.retag r.tag)) hoisted (r.span span)
  | .constDecl name type value span => .constDecl name type (value.retag r.tag) (r.span span)
  | .funcDecl name params body span endLine =>
    .funcDecl name (params.map (Parameter.relabel r)) (relabelAll r body) (r.span span)
      (r.line endLine)
  | .event kind name param body span endLine =>
    .event kind name (param.map (Expr.retag r.tag)) (relabelAll r body) (r.span span)
      (r.line endLine)
  | .call name args span => .call name (args.map (Expr.retag r.tag)) (r.span span)
  | .assign target op value span => .assign target op (value.retag r.tag) (r.span span)
  | .branch condition thenBody elseBody span =>
    .branch (condition.retag r.tag) (relabelAll r thenBody) (relabelAll r elseBody) (r.span span)
  | .loop kind body span => .loop (kind.relabel r) (relabelAll r body) (r.span span)

/-- Several statements with their marks changed. -/
def relabelAll (r : Relabeling) : List Stmt → List Stmt
  | [] => []
  | stmt :: rest => relabel r stmt :: relabelAll r rest

end

/-- All statements are relabeled. -/
@[simp] theorem relabelAll_eq_map (r : Relabeling) (stmts : List Stmt) :
    relabelAll r stmts = stmts.map (relabel r) := by
  induction stmts with
  | nil => rfl
  | cons stmt rest ih => rw [relabelAll, ih, List.map_cons]

section Keeps

variable {r : Relabeling}

private theorem map_retag_of_keeps (hr : r.Keeps) (e : Option Expr) :
    e.map (Expr.retag r.tag) = e := by
  cases e with
  | none => rfl
  | some e => rw [Option.map_some, Expr.retag_of_forall hr.tag]

private theorem relabel_kind_of_keeps (hr : r.Keeps) (kind : LoopKind) : kind.relabel r = kind := by
  cases kind <;> simp [LoopKind.relabel, Expr.retag_of_forall hr.tag]

private theorem relabel_parameters_of_keeps (hr : r.Keeps) (params : List Parameter) :
    params.map (Parameter.relabel r) = params := by
  have hparameter : Parameter.relabel r = id := by
    funext p
    simp [Parameter.relabel, hr.span]
  rw [hparameter, List.map_id]

mutual

/-- A statement stays. -/
theorem relabel_of_keeps (hr : r.Keeps) : ∀ stmt : Stmt, stmt.relabel r = stmt
  | .varDecl name type value hoisted span => by rw [relabel, map_retag_of_keeps hr, hr.span]
  | .constDecl name type value span | .assign target op value span => by
    rw [relabel, Expr.retag_of_forall hr.tag, hr.span]
  | .funcDecl name params body span endLine => by
    rw [relabel, relabel_parameters_of_keeps hr, relabelAll_of_keeps hr body, hr.span, hr.line]
  | .event kind name param body span endLine => by
    rw [relabel, map_retag_of_keeps hr, relabelAll_of_keeps hr body, hr.span, hr.line]
  | .call name args span => by
    rw [relabel, ← Expr.retagAll_eq_map, Expr.retagAll_of_forall hr.tag, hr.span]
  | .branch condition thenBody elseBody span => by
    rw [relabel, Expr.retag_of_forall hr.tag, relabelAll_of_keeps hr thenBody,
      relabelAll_of_keeps hr elseBody, hr.span]
  | .loop kind body span => by
    rw [relabel, relabel_kind_of_keeps hr, relabelAll_of_keeps hr body, hr.span]

/-- Statements stay. -/
theorem relabelAll_of_keeps (hr : r.Keeps) : ∀ stmts : List Stmt, relabelAll r stmts = stmts
  | [] => rfl
  | stmt :: rest => by rw [relabelAll, relabel_of_keeps hr stmt, relabelAll_of_keeps hr rest]

end

end Keeps

end Stmt

end BlockScript
