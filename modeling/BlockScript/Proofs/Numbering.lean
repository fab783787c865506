import BlockScript.Grammar.Statement
import BlockScript.Proofs.Runs
import Mathlib.Data.List.Nodup

/-!
# Numbers of expression nodes

The nodes of expressions are numbered with free numbers, one after another. So they have different
numbers, also where an operand is copied or a negation is stripped.
-/

namespace BlockScript

open List

mutual

/-- The numbers of the nodes of an expression. -/
def Expr.ids : Expr → List Nat
  | .ident tag _ | .literal tag _ => [tag.id]
  | .call tag _ args => tag.id :: idsAll args
  | .cast tag _ operand => tag.id :: operand.ids
  | .list tag items => tag.id :: idsAll items
  | .not tag operand => tag.id :: operand.ids
  | .binary tag _ left right => tag.id :: (left.ids ++ right.ids)
  | .group tag inner => tag.id :: inner.ids

/-- The numbers of the nodes of several expressions. -/
def Expr.idsAll : List Expr → List Nat
  | [] => []
  | e :: rest => e.ids ++ idsAll rest

end

/-- The numbers of the nodes of an expression that may be there. -/
def Expr.idsOf? (e : Option Expr) : List Nat := e.toList.flatMap Expr.ids

/-- The numbers of the nodes in the header of a loop. -/
def LoopKind.ids : LoopKind → List Nat
  | .forever => []
  | .times e | .until e => e.ids

mutual

/-- The numbers of the expression nodes of a statement. -/
def Stmt.ids : Stmt → List Nat
  | .varDecl _ _ value _ _ => Expr.idsOf? value
  | .constDecl _ _ value _ => value.ids
  | .funcDecl _ _ body _ _ => idsAll body
  | .event _ _ param body _ _ => Expr.idsOf? param ++ idsAll body
  | .call _ args _ => Expr.idsAll args
  | .assign _ _ value _ => value.ids
  | .branch condition thenBody elseBody _ => condition.ids ++ (idsAll thenBody ++ idsAll elseBody)
  | .loop kind body _ => kind.ids ++ idsAll body

/-- The numbers of the expression nodes of several statements. -/
def Stmt.idsAll : List Stmt → List Nat
  | [] => []
  | stmt :: rest => stmt.ids ++ idsAll rest

end

/-- Numbers come in order. -/
theorem Stmt.idsAll_append (first more : List Stmt) :
    Stmt.idsAll (first ++ more) = Stmt.idsAll first ++ Stmt.idsAll more := by
  induction first with
  | nil => rfl
  | cons stmt rest ih => simp [Stmt.idsAll, ih]

namespace Expr

/-- An expression has its number. -/
theorem id_mem_ids (e : Expr) : e.id ∈ e.ids := by
  cases e <;> simp [id, tag, ids]

/-- Parentheses have numbers of their own, besides those of what is in them. -/
theorem ids_ungrouped : ∀ e : Expr, e.ungrouped.ids.Sublist e.ids
  | .group _ inner => (ids_ungrouped inner).cons _
  | .ident .. | .literal .. | .call .. | .cast .. | .list .. | .not .. | .binary .. => .refl _

/-- Items have numbers of the list. -/
theorem idsAll_sublist_of_items? {e : Expr} {items : List Expr} (h : e.items? = some items) :
    (idsAll items).Sublist e.ids := by
  unfold items? at h
  split at h
  · rename_i tag items' heq
    cases h
    have hsub := ids_ungrouped e
    rw [heq] at hsub
    exact (sublist_cons_self _ _).trans hsub
  · cases h

end Expr

/-- Whether numbers are different and lie between two bounds. -/
def Numbered (low high : Nat) (ids : List Nat) : Prop :=
  ids.Nodup ∧ ∀ id ∈ ids, low ≤ id ∧ id < high

namespace Numbered

variable {low middle high : Nat} {ids more : List Nat}

/-- No numbers. -/
theorem nil : Numbered low high [] := ⟨nodup_nil, nofun⟩

/-- Bounds may be wider. -/
theorem mono {low' high' : Nat} (h : Numbered low high ids) (hlow : low' ≤ low)
    (hhigh : high ≤ high') : Numbered low' high' ids := by
  refine ⟨h.1, fun id hid => ?_⟩
  have := h.2 id hid
  omega

/-- Numbers after numbers. -/
theorem append (h : Numbered low middle ids) (hmore : Numbered middle high more)
    (hlow : low ≤ middle) (hhigh : middle ≤ high) : Numbered low high (ids ++ more) := by
  refine ⟨h.1.append hmore.1 fun id hid hmem => ?_, fun id hid => ?_⟩
  · have := h.2 id hid
    have := hmore.2 id hmem
    omega
  · rcases mem_append.mp hid with hid | hid
    · have := h.2 id hid
      omega
    · have := hmore.2 id hid
      omega

/-- Numbers that are taken from numbered ones, each once, are numbered. -/
theorem of_count_le (h : Numbered low high ids) (hcount : ∀ id, more.count id ≤ ids.count id) :
    Numbered low high more := by
  refine ⟨nodup_iff_count_le_one.mpr fun id => ?_, fun id hid => h.2 id ?_⟩
  · exact Nat.le_trans (hcount id) (nodup_iff_count_le_one.mp h.1 id)
  · exact count_pos_iff.mp (Nat.lt_of_lt_of_le (count_pos_iff.mpr hid) (hcount id))

/-- The next free number. -/
theorem cons_next {next : Nat} (h : Numbered low next ids) (hlow : low ≤ next) :
    Numbered low (next + 1) (next :: ids) := by
  refine ⟨nodup_cons.mpr ⟨fun hmem => ?_, h.1⟩, fun id hid => ?_⟩
  · have := h.2 next hmem
    omega
  · rcases mem_cons.mp hid with rfl | hid
    · omega
    · have := h.2 id hid
      omega

end Numbered

mutual

private theorem Expr.copy_numbered (next : Nat) :
    ∀ e : Expr, next ≤ (e.copy next).2 ∧ Numbered next (e.copy next).2 (e.copy next).1.ids
  | .ident tag name | .literal tag value => ⟨Nat.le_succ _, Numbered.nil.cons_next (Nat.le_refl _)⟩
  | .call tag callee args | .list tag args => by
    obtain ⟨hle, hargs⟩ := copyAll_numbered next args
    exact ⟨Nat.le_succ_of_le hle, hargs.cons_next hle⟩
  | .cast tag target operand | .not tag operand | .group tag operand => by
    obtain ⟨hle, hoperand⟩ := copy_numbered next operand
    exact ⟨Nat.le_succ_of_le hle, hoperand.cons_next hle⟩
  | .binary tag op left right => by
    obtain ⟨hle, hleft⟩ := copy_numbered next left
    obtain ⟨hle', hright⟩ := copy_numbered (left.copy next).2 right
    have hboth := hleft.append hright hle hle'
    exact ⟨Nat.le_succ_of_le (Nat.le_trans hle hle'), hboth.cons_next (Nat.le_trans hle hle')⟩

private theorem Expr.copyAll_numbered (next : Nat) : ∀ es : List Expr,
    next ≤ (copyAll next es).2 ∧ Numbered next (copyAll next es).2 (idsAll (copyAll next es).1)
  | [] => ⟨Nat.le_refl _, .nil⟩
  | e :: rest => by
    obtain ⟨hle, he⟩ := copy_numbered next e
    obtain ⟨hle', hrest⟩ := copyAll_numbered (e.copy next).2 rest
    exact ⟨Nat.le_trans hle hle', he.append hrest hle hle'⟩

end

variable {low next : Nat}

/-- A join takes new numbers. -/
theorem Join.build_numbered (hlow : low ≤ next) {left right : Expr} (join : Join)
    (h : Numbered low next (left.ids ++ right.ids)) : next ≤ (join.build next left right).2 ∧
      Numbered low (join.build next left right).2 (join.build next left right).1.ids := by
  cases join with
  | plain op => exact ⟨Nat.le_succ _, h.cons_next hlow⟩
  | unequal => exact ⟨by simp [build], (h.cons_next hlow).cons_next (by omega)⟩
  | orEqual op =>
    obtain ⟨hle, hleft⟩ := Expr.copy_numbered next left
    obtain ⟨hle', hright⟩ := Expr.copy_numbered (left.copy next).2 right
    have hcopies := (h.append (hleft.append hright hle hle') hlow (by omega))
    refine ⟨by simp only [build]; omega, ?_⟩
    refine (((hcopies.cons_next (by omega)).cons_next (by omega)).cons_next (by omega)).of_count_le
      fun id => ?_
    simp only [build, Expr.join, Expr.ids, count_cons, count_append, Nat.add_assoc, Nat.reduceAdd]
    omega

/-- A negation takes new numbers. -/
theorem Expr.negated_numbered (hlow : low ≤ next) (start : Span) {operand : Expr}
    (h : Numbered low next operand.ids) : next ≤ (operand.negated next start).2 ∧
      Numbered low (operand.negated next start).2 (operand.negated next start).1.ids := by
  unfold negated
  split
  · exact ⟨Nat.le_refl _, h⟩
  · exact ⟨Nat.le_add_right _ _, (h.cons_next hlow).cons_next (Nat.le_succ_of_le hlow)⟩

/-- An inversion takes new numbers. -/
theorem Expr.inverted_numbered (hlow : low ≤ next) {e : Expr} (h : Numbered low next e.ids) :
    next ≤ (e.inverted next).2 ∧ Numbered low (e.inverted next).2 (e.inverted next).1.ids := by
  fun_induction Expr.inverted next e with
  | case1 tag operand => exact ⟨Nat.le_refl _, h.of_count_le fun id => by simp [ids, count_cons]⟩
  | case2 tag inner _ _ _ ih => exact ih (h.of_count_le fun id => by simp [ids, count_cons])
  | case3 tag inner => exact ⟨Nat.le_succ _, h.cons_next hlow⟩
  | case4 e => exact ⟨Nat.le_succ _, h.cons_next hlow⟩

end BlockScript
