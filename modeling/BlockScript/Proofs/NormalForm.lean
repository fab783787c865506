import BlockScript.Proofs.Agreement
import BlockScript.Proofs.Emitted

/-!
# Parts of folded programs

Every part of a folded expression is the folded form of a part of the expression, and folding finds
nothing in a part if it finds nothing in the whole. So what is true of folded typed expressions is
true of all parts of a folded program.
-/

namespace BlockScript

section

open List

namespace Expr

variable {c : FoldContext}

/-- Whether expressions are the folded forms of some expressions. -/
def FormsOf (c : FoldContext) (sources es : List Expr) :
    Prop := ∀ e ∈ es, ∃ source ∈ sources, e = source.fold c

private theorem FormsOf.mono {sources more es : List Expr} (h : FormsOf c sources es)
    (hsub : sources ⊆ more) : FormsOf c more es := by
  intro e he
  obtain ⟨source, hsrc, heq⟩ := h e he
  exact ⟨source, hsub hsrc, heq⟩

private theorem FormsOf.literalOr {e node : Expr} {sources rest : List Expr} {tag : Tag}
    {value : Option Value} (h : FormsOf c sources rest) (hparts : node.parts = node :: rest)
    (hfold : e.fold c = literalOr tag value node) : FormsOf c (e :: sources) (e.fold c).parts := by
  have hself : ∃ source ∈ e :: sources, e.fold c = source.fold c := ⟨e, mem_cons_self, rfl⟩
  rw [hfold] at hself ⊢
  cases value with
  | some value => exact forall_mem_singleton.mpr hself
  | none =>
    rw [Expr.literalOr, hparts]
    exact forall_mem_cons.mpr ⟨hself, h.mono (subset_cons_self _ _)⟩

mutual

/-- The parts of a folded expression are folded forms of its parts. -/
theorem formsOf_parts (c : FoldContext) : ∀ e : Expr, FormsOf c e.parts (e.fold c).parts
  | .literal .. => forall_mem_singleton.mpr ⟨_, mem_cons_self, rfl⟩
  | .ident .. => FormsOf.literalOr (forall_mem_nil _) rfl (by rw [fold])
  | .list _ items => forall_mem_cons.mpr
      ⟨⟨_, mem_cons_self, by rw [fold]⟩, (formsOf_partsAll c items).mono (subset_cons_self _ _)⟩
  | .call _ _ args => (formsOf_partsAll c args).literalOr rfl (by rw [fold])
  | .cast _ _ operand | .not _ operand | .group _ operand =>
    (formsOf_parts c operand).literalOr rfl (by rw [fold])
  | .binary _ _ left right => by
    have hparts :
        FormsOf c (left.parts ++ right.parts) ((left.fold c).parts ++ (right.fold c).parts) :=
      forall_mem_append.mpr ⟨(formsOf_parts c left).mono (subset_append_left _ _),
        (formsOf_parts c right).mono (subset_append_right _ _)⟩
    exact hparts.literalOr rfl (by rw [fold])

private theorem formsOf_partsAll (c : FoldContext) :
    ∀ es : List Expr, FormsOf c (partsAll es) (partsAll (foldAll c es))
  | [] => forall_mem_nil _
  | e :: rest => forall_mem_append.mpr ⟨(formsOf_parts c e).mono (subset_append_left _ _),
      (formsOf_partsAll c rest).mono (subset_append_right _ _)⟩

end

mutual

/-- If folding finds nothing in an expression it finds nothing in the parts. -/
theorem findings_parts : ∀ {e : Expr}, e.findings c = [] → ∀ part ∈ e.parts, part.findings c = []
  | .literal .., h | .ident .., h => forall_mem_singleton.mpr h
  | .call .., h => forall_mem_cons.mpr ⟨h, findings_partsAll (append_eq_nil_iff.mp h).1⟩
  | .cast .., h => forall_mem_cons.mpr ⟨h, findings_parts (append_eq_nil_iff.mp h).1⟩
  | .list .., h => forall_mem_cons.mpr ⟨h, findings_partsAll h⟩
  | .not _ operand, h | .group _ operand, h =>
    forall_mem_cons.mpr ⟨h, findings_parts (e := operand) h⟩
  | .binary .., h => by
    obtain ⟨hleft, hright⟩ := append_eq_nil_iff.mp (append_eq_nil_iff.mp h).1
    exact forall_mem_cons.mpr
      ⟨h, forall_mem_append.mpr ⟨findings_parts hleft, findings_parts hright⟩⟩

private theorem findings_partsAll :
    ∀ {es : List Expr}, findingsAll c es = [] → ∀ part ∈ partsAll es, part.findings c = []
  | [], _ => forall_mem_nil _
  | _ :: _, h => forall_mem_append.mpr ⟨findings_parts (append_eq_nil_iff.mp h).1,
      findings_partsAll (append_eq_nil_iff.mp h).2⟩

end

end Expr

namespace Finished

variable {w : Finished} {fits : Value → DataType → Prop}

/-- Every expression of the folded form of an accepted program is the folded form of one of the
program. -/
theorem Accepts.exists_folds {program : Program} (h : w.Accepts program.statements)
    {pictures : Pictures} (hfinds : w.FindsFitting fits ⟨w.catalog, w.types, pictures, w.defs, []⟩)
    (hclean : (program.fold w.catalog w.types pictures w.defs).errors = [])
    {q : Option String × Expr} (hq : q ∈ Stmt.exprsAll none
    (program.fold w.catalog w.types pictures w.defs).program.statements) :
    ∃ p ∈ Stmt.exprsAll none program.statements,
      w.Folds fits ⟨w.catalog, w.types, pictures, w.defs, []⟩ p q := by
  obtain ⟨hfolds, _⟩ := fold_fits hfinds h.accepted hclean
  have hexists {keep : Stmt → Bool} {passed : List String}
      (hacc : Stmt.AcceptedAll w none passed (program.statements.filter keep)) {out : List Stmt}
      (hfolds : Stmt.FoldsAll ⟨w.catalog, w.types, pictures, w.defs, []⟩ (w.Fit fits) [] passed
        (program.statements.filter keep) out) (hq : q ∈ Stmt.exprsAll none out) :
      ∃ p ∈ Stmt.exprsAll none program.statements,
        w.Folds fits ⟨w.catalog, w.types, pictures, w.defs, []⟩ p q := by
    obtain ⟨p, hp, hfold⟩ := exists_zip_of_forall₂ (folds_exprsAll around_none hacc hfolds) hq
    obtain ⟨stmt, hstmt, hp⟩ := Stmt.mem_exprsAll.mp (of_mem_zip hp).1
    exact ⟨p, Stmt.mem_exprsAll.mpr ⟨stmt, mem_of_mem_filter hstmt, hp⟩, hfold⟩
  obtain ⟨stmt, hstmt, hq⟩ := Stmt.mem_exprsAll.mp hq
  cases hkind : stmt.isConstant with
  | true =>
    exact hexists h.accepted.constants hfolds.constants
      (Stmt.mem_exprsAll.mpr ⟨stmt, mem_filter.mpr ⟨hstmt, hkind⟩, hq⟩)
  | false =>
    exact hexists h.accepted.others hfolds.others
      (Stmt.mem_exprsAll.mpr ⟨stmt, mem_filter.mpr ⟨hstmt, by simp [Stmt.isOther, hkind]⟩, hq⟩)

end Finished

end

/-!
## The normal form of folding

Folding an expression once is enough: the folded expression stays as it is when it is folded again.
So every part of it stays as it is, and none can be replaced by a literal.
-/

variable {e node : Expr} {tag : Tag} {value : Option Value}

namespace Expr

variable {c : FoldContext}

/-- Whether an expression is no literal in disguise: its outermost node has no value that the parts
below it give. -/
def Settled (c : FoldContext) : Expr → Prop
  | .ident _ name => name ∈ c.params ∨ (c.defs.constants.get? name).bind (·.value) = none
  | .literal _ _ | .list _ _ => True
  | .call _ callee args => callValue? callee (args.map value?) = none
  | .cast _ target operand => ∀ v, operand.value? = some v → ∀ r, v.cast c.pictures target ≠
    .ok (some r)
  | .not _ operand => ∀ b, operand.value? ≠ some (.boolean b)
  | .binary _ op left right => ∀ l r, left.value? = some l → right.value? = some r →
    op.eval? l r = none
  | .group _ inner => inner.value? = none

private theorem fold_literalOr (h : node.fold c = literalOr tag value node) :
    (literalOr tag value node).fold c = literalOr tag value node := by
  cases value with
  | none => exact h
  | some value => rfl

mutual

private theorem fold_fold (c : FoldContext) : ∀ e : Expr, (e.fold c).fold c = e.fold c
  | .ident .. => fold_literalOr rfl
  | .literal .. => rfl
  | .list _ items => by rw [fold, fold, foldAll_foldAll c items]
  | .call _ _ args => fold_literalOr (by rw [fold, foldAll_foldAll c args])
  | .cast _ _ operand | .not _ operand | .group _ operand =>
    fold_literalOr (by rw [fold, fold_fold c operand])
  | .binary _ _ left right => fold_literalOr (by rw [fold, fold_fold c left, fold_fold c right])

private theorem foldAll_foldAll (c : FoldContext) :
    ∀ es : List Expr, foldAll c (foldAll c es) = foldAll c es
  | [] => rfl
  | e :: rest => by rw [foldAll, foldAll, fold_fold c e, foldAll_foldAll c rest]

end

private theorem eq_none_of_literalOr_eq (h : literalOr tag value node = e)
    (he : ∀ v, e ≠ .literal tag v) : value = none ∧ node = e := by
  cases value with
  | none => exact ⟨rfl, h⟩
  | some value => exact absurd h.symm (he value)

private theorem settled_of_fold_eq (h : e.fold c = e) : e.Settled c := by
  cases e with
  | literal => trivial
  | list => trivial
  | ident tag name =>
    obtain ⟨hknown, _⟩ := eq_none_of_literalOr_eq h (by rintro _ ⟨⟩)
    unfold FoldContext.known? at hknown
    split at hknown
    · rename_i hhidden
      exact .inl (by simpa using hhidden)
    · exact .inr hknown
  | call tag callee args =>
    obtain ⟨hvalue, hnode⟩ := eq_none_of_literalOr_eq h (by rintro _ ⟨⟩)
    rwa [(Expr.call.inj hnode).2.2] at hvalue
  | cast tag target operand =>
    obtain ⟨hvalue, hnode⟩ := eq_none_of_literalOr_eq h (by rintro _ ⟨⟩)
    rw [(Expr.cast.inj hnode).2.2] at hvalue
    intro v hv r hcast
    rw [hv, castValue?, Option.bind_some, hcast] at hvalue
    cases hvalue
  | not tag operand =>
    obtain ⟨hvalue, hnode⟩ := eq_none_of_literalOr_eq h (by rintro _ ⟨⟩)
    rw [(Expr.not.inj hnode).2] at hvalue
    intro b hb
    rw [hb] at hvalue
    cases hvalue
  | binary tag op left right =>
    obtain ⟨hvalue, hnode⟩ := eq_none_of_literalOr_eq h (by rintro _ ⟨⟩)
    rw [(Expr.binary.inj hnode).2.2.1, (Expr.binary.inj hnode).2.2.2] at hvalue
    intro l r hl hr
    rwa [hl, hr] at hvalue
  | group tag inner =>
    obtain ⟨hvalue, hnode⟩ := eq_none_of_literalOr_eq h (by rintro _ ⟨⟩)
    rwa [(Expr.group.inj hnode).2] at hvalue

end Expr

/-- **Folding reaches its normal form in one pass.** An expression that has been folded stays as it
is when it is folded again in the same context. None of its parts is an expression in parentheses
that has a value, a constant with a known value that no parameter hides, the negation of a truth
value, or an operation, a cast or a call whose result follows from the values of its operands. -/
theorem fold_reaches_normal_form (c : FoldContext) (e : Expr) :
    (e.fold c).fold c = e.fold c ∧ ∀ part ∈ (e.fold c).parts, part.Settled c := by
  refine ⟨Expr.fold_fold c e, fun part hpart => ?_⟩
  obtain ⟨source, _, rfl⟩ := Expr.formsOf_parts c e part hpart
  exact Expr.settled_of_fold_eq (Expr.fold_fold c source)

end BlockScript
