import BlockScript.Proofs.Numbering

/-!
# Parts of programs

A property of the tags of nodes, of the places of statements or of the names of constants is one of
a whole program if all its parts have it.
-/

namespace BlockScript

variable {N : Nat → Prop} {stmts : List Stmt}

open List

mutual

/-- Whether the tags of all nodes of an expression have a property. -/
def Expr.Tagged (T : Tag → Prop) : Expr → Prop
  | .ident tag _ | .literal tag _ => T tag
  | .call tag _ args => T tag ∧ TaggedAll T args
  | .cast tag _ operand => T tag ∧ operand.Tagged T
  | .list tag items => T tag ∧ TaggedAll T items
  | .not tag operand => T tag ∧ operand.Tagged T
  | .binary tag _ left right => T tag ∧ left.Tagged T ∧ right.Tagged T
  | .group tag inner => T tag ∧ inner.Tagged T

/-- Whether the tags of all nodes of several expressions have a property. -/
def Expr.TaggedAll (T : Tag → Prop) : List Expr → Prop
  | [] => True
  | e :: rest => e.Tagged T ∧ TaggedAll T rest

end

mutual

/-- The parts of an expression, itself included. -/
def Expr.parts : Expr → List Expr
  | .ident tag name => [.ident tag name]
  | .literal tag value => [.literal tag value]
  | .call tag callee args => .call tag callee args :: partsAll args
  | .cast tag target operand => .cast tag target operand :: operand.parts
  | .list tag items => .list tag items :: partsAll items
  | .not tag operand => .not tag operand :: operand.parts
  | .binary tag op left right => .binary tag op left right :: (left.parts ++ right.parts)
  | .group tag inner => .group tag inner :: inner.parts

/-- The parts of several expressions. -/
def Expr.partsAll : List Expr → List Expr
  | [] => []
  | e :: rest => e.parts ++ partsAll rest

end

/-- The expressions in the header of a loop. -/
def LoopKind.exprs : LoopKind → List Expr
  | .forever => []
  | .times count => [count]
  | .until condition => [condition]

/-- The expressions of an initializer: a list stands for its items. -/
def Expr.initial (e : Expr) : List Expr := e.items?.getD [e]

mutual

/-- The expressions of a statement, each with the function around it. -/
def Stmt.exprs (function : Option String) : Stmt → List (Option String × Expr)
  | .varDecl _ _ value _ _ => (value.toList.flatMap Expr.initial).map (function, ·)
  | .constDecl _ _ value _ => [(function, value)]
  | .funcDecl name _ body _ _ => exprsAll (some name) body
  | .event _ _ param body _ _ => param.toList.map (function, ·) ++ exprsAll function body
  | .call _ args _ => args.map (function, ·)
  | .assign _ _ value _ => [(function, value)]
  | .branch condition thenBody elseBody _ =>
    (function, condition) :: (exprsAll function thenBody ++ exprsAll function elseBody)
  | .loop kind body _ => kind.exprs.map (function, ·) ++ exprsAll function body

/-- The expressions of statements. -/
def Stmt.exprsAll (function : Option String) : List Stmt → List (Option String × Expr)
  | [] => []
  | stmt :: rest => stmt.exprs function ++ exprsAll function rest

end

/-- The expressions of statements. -/
theorem Stmt.mem_exprsAll {function : Option String} {p : Option String × Expr} :
    p ∈ exprsAll function stmts ↔ ∃ stmt ∈ stmts, p ∈ stmt.exprs function := by
  induction stmts with
  | nil => simp [exprsAll]
  | cons stmt rest ih => simp [exprsAll, ih]

/-- Whether the tags of all nodes in the header of a loop have a property. -/
def LoopKind.Tagged (T : Tag → Prop) : LoopKind → Prop
  | .forever => True
  | .times e | .until e => e.Tagged T

/-- Properties of the parts of a program. -/
structure Parts where
  /-- The property of the tags of nodes. -/
  tag : Tag → Prop
  /-- The property of the places of statements and parameters. -/
  span : Span → Prop
  /-- The property of the names of constants. -/
  constant : String → Prop
  /-- Whether the program is as it is written: no variable is hoisted, and no event that it declares
  has a parameter. -/
  written : Prop

mutual

/-- Whether the parts of a statement have some properties. -/
def Stmt.Of (w : Parts) : Stmt → Prop
  | .varDecl _ _ value hoisted span =>
    w.span span ∧ (∀ e ∈ value, e.Tagged w.tag) ∧ (w.written → hoisted = false)
  | .constDecl name _ value span => w.span span ∧ value.Tagged w.tag ∧ w.constant name
  | .funcDecl _ params body span _ => w.span span ∧ (∀ param ∈ params, w.span param.span) ∧
    AllOf w body
  | .event kind _ param body span _ => w.span span ∧ (∀ e ∈ param, e.Tagged w.tag) ∧ AllOf w body ∧
      (w.written → kind = .custom → param = none)
  | .call _ args span => w.span span ∧ Expr.TaggedAll w.tag args
  | .assign _ _ value span => w.span span ∧ value.Tagged w.tag
  | .branch condition thenBody elseBody span =>
    w.span span ∧ condition.Tagged w.tag ∧ AllOf w thenBody ∧ AllOf w elseBody
  | .loop kind body span => w.span span ∧ kind.Tagged w.tag ∧ AllOf w body

/-- Whether the parts of several statements have some properties. -/
def Stmt.AllOf (w : Parts) : List Stmt → Prop
  | [] => True
  | stmt :: rest => stmt.Of w ∧ AllOf w rest

end

/-- Whether a statement is one of those that may stand on the outermost level. -/
def Stmt.isItem : Stmt → Bool
  | .varDecl .. | .constDecl .. | .funcDecl .. | .event .. => true
  | _ => false

mutual

/-- Whether no variable in a statement is hoisted, and no event of the program has a parameter. -/
def Stmt.written : Stmt → Bool
  | .varDecl _ _ _ hoisted _ => !hoisted
  | .constDecl .. | .call .. | .assign .. => true
  | .funcDecl _ _ body _ _ => writtenAll body
  | .event kind _ param body _ _ => (kind != .custom || param.isNone) && writtenAll body
  | .branch _ thenBody elseBody _ => writtenAll thenBody && writtenAll elseBody
  | .loop _ body _ => writtenAll body

/-- Whether statements are written so. -/
def Stmt.writtenAll : List Stmt → Bool
  | [] => true
  | stmt :: rest => stmt.written && writtenAll rest

end

namespace Expr

variable {T : Tag → Prop}

/-- All expressions are tagged. -/
theorem taggedAll_iff {es : List Expr} : TaggedAll T es ↔ ∀ e ∈ es, e.Tagged T := by
  induction es with
  | nil => simp [TaggedAll]
  | cons e rest ih => simp [TaggedAll, ih]

/-- Its own tag. -/
theorem Tagged.tag {e : Expr} (h : e.Tagged T) : T e.tag := by
  cases e with
  | ident | literal => exact h
  | call | cast | list | not | binary | group => exact h.1

/-- Groups may be left out. -/
theorem Tagged.ungrouped : ∀ {e : Expr}, e.Tagged T → e.ungrouped.Tagged T
  | .group _ inner, h => Tagged.ungrouped (e := inner) h.2
  | .ident .., h | .literal .., h | .call .., h | .cast .., h | .list .., h | .not .., h
  | .binary .., h => h

/-- The items of a list. -/
theorem Tagged.items {e : Expr} {items : List Expr} (h : e.Tagged T)
    (hitems : e.items? = some items) : TaggedAll T items := by
  have hlist := h.ungrouped
  unfold items? at hitems
  split at hitems
  · rename_i heq
    rw [heq] at hlist
    cases hitems
    exact hlist.2
  · cases hitems

mutual

/-- A property of the numbers of all nodes is one of their tags. -/
theorem tagged_of_ids : ∀ {e : Expr}, (∀ id ∈ e.ids, N id) → e.Tagged fun tag => N tag.id
  | .ident .., h | .literal .., h => h _ mem_cons_self
  | .call .., h | .list .., h =>
    ⟨h _ mem_cons_self, taggedAll_of_ids fun _ hid => h _ (.tail _ hid)⟩
  | .cast .., h | .not .., h | .group .., h =>
    ⟨h _ mem_cons_self, tagged_of_ids fun _ hid => h _ (.tail _ hid)⟩
  | .binary .., h =>
      ⟨h _ mem_cons_self, tagged_of_ids fun _ hid => h _ (.tail _ (mem_append_left _ hid)),
      tagged_of_ids fun _ hid => h _ (.tail _ (mem_append_right _ hid))⟩

/-- Numbers are part of tags. -/
theorem taggedAll_of_ids :
    ∀ {es : List Expr}, (∀ id ∈ idsAll es, N id) → TaggedAll (fun tag => N tag.id) es
  | [], _ => trivial
  | _ :: _, h => ⟨tagged_of_ids fun _ hid => h _ (mem_append_left _ hid),
      taggedAll_of_ids fun _ hid => h _ (mem_append_right _ hid)⟩

end

/-- A value that may be missing. -/
theorem tagged_of_idsOf? {value : Option Expr} (h : ∀ id ∈ idsOf? value, N id) :
    ∀ e ∈ value, e.Tagged fun tag => N tag.id := by
  rintro e rfl
  exact tagged_of_ids fun id hid => h id (by simpa [idsOf?] using hid)

/-- Any tag will do. -/
theorem tagged_true (e : Expr) :
    e.Tagged fun _ => True := tagged_of_ids (N := fun _ => True) fun _ _ => trivial

/-- Any tags will do. -/
theorem taggedAll_true (es : List Expr) : TaggedAll (fun _ => True) es :=
  taggedAll_iff.mpr fun e _ => e.tagged_true

end Expr

/-- The header of a loop. -/
theorem LoopKind.tagged_of_ids :
    ∀ {kind : LoopKind}, (∀ id ∈ kind.ids, N id) → kind.Tagged fun tag => N tag.id
  | .forever, _ => trivial
  | .times _, h | .until _, h => Expr.tagged_of_ids h

/-- Any header will do. -/
theorem LoopKind.tagged_true : ∀ kind : LoopKind, kind.Tagged fun _ => True
  | .forever => trivial
  | .times e | .until e => e.tagged_true

namespace Stmt

variable {w : Parts}

/-- All statements. -/
theorem allOf_iff : AllOf w stmts ↔ ∀ stmt ∈ stmts, stmt.Of w := by
  induction stmts with
  | nil => simp [AllOf]
  | cons stmt rest ih => simp [AllOf, ih]

/-- Statements after statements. -/
theorem allOf_append {more : List Stmt} (h : AllOf w stmts) (hmore : AllOf w more) :
    AllOf w (stmts ++ more) := by
  rw [allOf_iff] at h hmore ⊢
  exact forall_mem_append.mpr ⟨h, hmore⟩

/-- The place of a statement. -/
theorem Of.span {stmt : Stmt} (h : stmt.Of w) : w.span stmt.span := by
  cases stmt <;> exact h.1

mutual

/-- All programs have parts of some kind. -/
theorem of_true : ∀ stmt : Stmt, stmt.Of ⟨fun _ => True, fun _ => True, fun _ => True, False⟩
  | .varDecl .. => ⟨trivial, fun e _ => e.tagged_true, nofun⟩
  | .constDecl .. => ⟨trivial, Expr.tagged_true _, trivial⟩
  | .funcDecl .. => ⟨trivial, fun _ _ => trivial, allOf_true _⟩
  | .event .. => ⟨trivial, fun e _ => e.tagged_true, allOf_true _, nofun⟩
  | .call .. => ⟨trivial, Expr.taggedAll_true _⟩
  | .assign .. => ⟨trivial, Expr.tagged_true _⟩
  | .branch .. => ⟨trivial, Expr.tagged_true _, allOf_true _, allOf_true _⟩
  | .loop kind .. => ⟨trivial, kind.tagged_true, allOf_true _⟩

/-- Any statements will do. -/
theorem allOf_true :
    ∀ stmts : List Stmt, AllOf ⟨fun _ => True, fun _ => True, fun _ => True, False⟩ stmts
  | [] => trivial
  | stmt :: rest => ⟨of_true stmt, allOf_true rest⟩

end

mutual

/-- What is written is. -/
theorem Of.isWritten (hw : w.written) : ∀ {stmt : Stmt}, stmt.Of w → stmt.written
  | .varDecl .., h => by simp [written, h.2.2 hw]
  | .constDecl .., _ | .call .., _ | .assign .., _ => rfl
  | .funcDecl .., h | .loop .., h => AllOf.isWritten hw h.2.2
  | .event kind .., h => by
    have hparam := h.2.2.2 hw
    cases kind <;> simp_all [written, AllOf.isWritten hw h.2.2.1]
  | .branch .., h => by simp [written, AllOf.isWritten hw h.2.2.1, AllOf.isWritten hw h.2.2.2]

private theorem AllOf.isWritten (hw : w.written) :
    ∀ {stmts : List Stmt}, AllOf w stmts → writtenAll stmts
  | [], _ => rfl
  | _ :: _, h => by simp [writtenAll, Of.isWritten hw h.1, AllOf.isWritten hw h.2]

end

mutual

/-- The places of statements may be forgotten, and that a program is as it is written. -/
theorem Of.mono {span : Span → Prop} {written : Prop} (hspan : ∀ s, w.span s → span s)
    (hwritten : written → w.written) : ∀ {stmt : Stmt}, stmt.Of w → stmt.Of { w with span, written }
  | .varDecl .., h => ⟨hspan _ h.1, h.2.1, fun hw => h.2.2 (hwritten hw)⟩
  | .constDecl .., h | .call .., h | .assign .., h => ⟨hspan _ h.1, h.2⟩
  | .funcDecl .., h =>
    ⟨hspan _ h.1, fun param hparam => hspan _ (h.2.1 param hparam), AllOf.mono hspan hwritten h.2.2⟩
  | .event .., h =>
    ⟨hspan _ h.1, h.2.1, AllOf.mono hspan hwritten h.2.2.1, fun hw => h.2.2.2 (hwritten hw)⟩
  | .branch .., h =>
    ⟨hspan _ h.1, h.2.1, AllOf.mono hspan hwritten h.2.2.1, AllOf.mono hspan hwritten h.2.2.2⟩
  | .loop .., h => ⟨hspan _ h.1, h.2.1, AllOf.mono hspan hwritten h.2.2⟩

/-- Less may be said. -/
theorem AllOf.mono {span : Span → Prop} {written : Prop} (hspan : ∀ s, w.span s → span s)
    (hwritten : written → w.written) :
    ∀ {stmts : List Stmt}, AllOf w stmts → AllOf { w with span, written } stmts
  | [], _ => trivial
  | _ :: _, h => ⟨Of.mono hspan hwritten h.1, AllOf.mono hspan hwritten h.2⟩

end

end Stmt

mutual

/-- The names of the constants that a statement declares. -/
def Stmt.constants : Stmt → List String
  | .constDecl name _ _ _ => [name]
  | .funcDecl _ _ body _ _ => constantsAll body
  | .event _ _ _ body _ _ => constantsAll body
  | .branch _ thenBody elseBody _ => constantsAll thenBody ++ constantsAll elseBody
  | .loop _ body _ => constantsAll body
  | _ => []

/-- The names of the constants that statements declare. -/
def Stmt.constantsAll : List Stmt → List String
  | [] => []
  | stmt :: rest => stmt.constants ++ constantsAll rest

end

mutual

private theorem Stmt.Of.constants {w : Parts} :
    ∀ {stmt : Stmt}, stmt.Of w → ∀ name ∈ stmt.constants, w.constant name
  | .constDecl .., h => forall_mem_singleton.mpr h.2.2
  | .funcDecl .., h | .loop .., h => AllOf.constants h.2.2
  | .event .., h => AllOf.constants h.2.2.1
  | .branch .., h => forall_mem_append.mpr ⟨AllOf.constants h.2.2.1, AllOf.constants h.2.2.2⟩
  | .varDecl .., _ | .call .., _ | .assign .., _ => forall_mem_nil _

/-- The constants of statements. -/
theorem Stmt.AllOf.constants {w : Parts} : ∀ {stmts : List Stmt}, AllOf w stmts →
    ∀ name ∈ constantsAll stmts, w.constant name
  | [], _ => forall_mem_nil _
  | _ :: _, h => forall_mem_append.mpr ⟨Of.constants h.1, AllOf.constants h.2⟩

end

/-- Whether a statement declares a constant. -/
def Stmt.isConstant : Stmt → Bool
  | .constDecl .. => true
  | _ => false

/-- Whether a statement declares no constant. -/
def Stmt.isOther (stmt : Stmt) : Bool := !stmt.isConstant

/-- Constants come in order. -/
theorem Stmt.constantsAll_append (stmts more : List Stmt) :
    constantsAll (stmts ++ more) = constantsAll stmts ++ constantsAll more := by
  induction stmts with
  | nil => rfl
  | cons stmt rest ih => simp only [cons_append, constantsAll, ih, append_assoc]

end BlockScript
