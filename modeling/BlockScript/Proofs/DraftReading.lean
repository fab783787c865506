import BlockScript.Proofs.Draft
import BlockScript.Proofs.ExpressionReading
import BlockScript.Proofs.ItemBoundaries

/-!
# Drafts are read back

The tokens of the lines of a draft are those of an expression, a statement or an item of the
grammar, with the tree of the draft, up to parentheses. The parser takes the lines of a statement
and stops at what follows them, if that is not indented deeper and does not go on with a condition.
So the text of a draft is scanned and parsed without errors, and the result is its tree.
-/

namespace BlockScript

section

open List Cursor
open Draft.Stmt (linesAll treeAll)

variable {written : Option Spelling} {depth : Nat} {other : Level} {α : Type}

/-! ### Expressions -/

private theorem Level.eq_of_rank {level : Level} (h : level.rank = other.rank) : level = other := by
  cases level <;> cases other <;> first | rfl | cases h

private theorem Level.rank_lt (level : Level) : level.rank < 8 := by
  cases level <;> decide

private theorem Derives.loosen {level : Level} {kinds : List Token.Kind} {e : Expr}
    (h : Derives level kinds e) (hle : other.rank ≤ level.rank) : Derives other kinds e := by
  generalize hgap : level.rank - other.rank = gap
  induction gap generalizing other with
  | zero =>
    have heq : other = level := Level.eq_of_rank (by omega)
    rwa [heq]
  | succ gap ih =>
    cases hoperand : other.operand? with
    | some operand =>
      have hrank := Level.rank_of_operand? hoperand
      exact .operand hoperand (ih (by omega) (by omega))
    | none =>
      have hbound := level.rank_lt
      have hprimary : Level.primary.rank = 7 := rfl
      have hunary : Level.unary.rank = 6 := rfl
      have hother : other = .unary := by
        cases other <;> first | rfl | cases hoperand
        omega
      subst hother
      have hder : Derives .primary kinds e := ih (by omega) (by omega)
      exact .plain hder

/-- The level of a binary operator. -/
def BinaryOp.level : BinaryOp → Level
  | .or => .disjunction
  | .and => .conjunction
  | .eq => .equality
  | .lt | .gt => .comparison
  | .add | .sub => .term
  | .mul | .div | .mod => .factor

namespace Spelling

variable (a b : Spelling)

@[simp] private theorem kinds_spaced : (a.spaced b).kinds = a.kinds ++ b.kinds := rfl

@[simp] private theorem kinds_comma : (a.comma b).kinds = a.kinds ++ .sign .comma :: b.kinds := rfl

@[simp] private theorem kinds_beside (h : Stops b.chars) :
    (a.beside b h).kinds = a.kinds ++ b.kinds := rfl

@[simp] private theorem kinds_heads : a.heads.kinds = a.kinds ++ [.sign .colon] := rfl

@[simp] private theorem kinds_keyword (text : String) (word : Keyword) (hword : isWord text)
    (hkind : Token.Kind.ofWord text = .keyword word) :
    (keyword text word hword hkind).kinds = [.keyword word] := rfl

end Spelling

private theorem BinaryOp.exists_operator (op : BinaryOp) :
    ∃ kind operand, (Spelling.operator op).kinds = [kind] ∧ op.level.operand? = some operand ∧
      Operator op.level kind (.operation op) := by
  cases op <;> exact ⟨_, _, rfl, rfl, by constructor⟩

private theorem Draft.Dotted.dottedName (name : Dotted) : DottedName name.kinds name.text := by
  obtain ⟨first, rest⟩ := name
  have hrest :
      ∀ (rest : List Name) (kinds : List Token.Kind) (text : String), DottedName kinds text →
      DottedName (kinds ++ rest.flatMap fun part => [.sign .dot, .name part.text])
        (rest.foldl (fun text part => text ++ "." ++ part.text) text) := by
    intro rest
    induction rest with
    | nil =>
      intro kinds text h
      simpa using h
    | cons part rest ih =>
      intro kinds text h
      have := ih _ _ (.member part.text h)
      simpa using this
  exact hrest rest _ _ (.single first.text)

namespace Draft.Expr

/-- The level of a phrase that an expression is written as. -/
def level : Expr → Level
  | .binary op _ _ => op.level
  | _ => .unary

/-- Whether an expression is written as a phrase of a level, with its tree up to parentheses. -/
def Reads (level : Level) (kinds : List Token.Kind) (tree : BlockScript.Expr) : Prop :=
  ∃ e, Derives level kinds e ∧ e.core = tree.core

private theorem reads_operand {e : Expr} (h : Reads e.level e.spelling.kinds e.tree) :
    Reads .unary (e.operand e.spelling).kinds e.tree := by
  obtain ⟨t, hder, hcore⟩ := h
  unfold operand
  split
  · refine ⟨.group .blank t, .plain ?_, ?_⟩
    · exact .group (hder.loosen (Nat.zero_le _))
    · rwa [BlockScript.Expr.core]
  · rename_i hsimple
    have hlevel : e.level = .unary := by
      cases e <;> first | rfl | exact absurd rfl hsimple
    rw [hlevel] at hder
    exact ⟨t, hder, hcore⟩

/-- How the written form of several expressions is read. -/
def ReadsAll (written : Option Spelling) (trees : List BlockScript.Expr) : Prop :=
  match written with
  | none => trees = []
  | some s => ∃ es, Enumerates s.kinds es ∧ es.map BlockScript.Expr.core =
    trees.map BlockScript.Expr.core

private theorem type?_scalar {target : DataType} (h : target.isList = false) :
    ∃ word, (Spelling.scalar target).kinds = [.keyword word] ∧ word.type? = some target := by
  cases target <;> first | exact ⟨_, rfl, rfl⟩ | cases h

private theorem reads_number (n : Numeral) :
    Reads .unary n.spelling.kinds (.literal .blank (.number n.value)) := by
  unfold Numeral.spelling Numeral.value
  split
  · exact ⟨_, .minus (.plain (.literal _)), rfl⟩
  · exact ⟨_, .plain (.literal _), rfl⟩

private theorem reads_truth (b : Bool) :
    Reads .unary (Spelling.truth b).kinds (.literal .blank (.boolean b)) := by
  cases b <;> exact ⟨_, .plain (.literal _), rfl⟩

variable {trees : List BlockScript.Expr}

private theorem reads_call (callee : Dotted) (h : ReadsAll written trees) :
    Reads .unary (callee.spelling.kinds ++ (Spelling.bracketed .round written).kinds)
      (.call .blank callee.text trees) := by
  cases written with
  | none =>
    cases h
    exact ⟨_, .plain (.emptyCall callee.dottedName), rfl⟩
  | some s =>
    obtain ⟨es, henum, hcore⟩ := h
    refine ⟨.call .blank callee.text es, .plain ?_, ?_⟩
    · have hcall := Derives.call callee.dottedName henum
      rw [append_assoc] at hcall
      exact hcall
    · simp [BlockScript.Expr.core, hcore]

private theorem reads_list (h : ReadsAll written trees) :
    Reads .unary (Spelling.bracketed .square written).kinds (.list .blank trees) := by
  cases written with
  | none =>
    cases h
    exact ⟨_, .plain .emptyList, rfl⟩
  | some s =>
    obtain ⟨es, henum, hcore⟩ := h
    refine ⟨.list .blank es, .plain (.list henum), ?_⟩
    simp [BlockScript.Expr.core, hcore]

private theorem reads_binary (op : BinaryOp) {lefts rights : List Token.Kind}
    {left right : BlockScript.Expr} (hleft : Reads .unary lefts left)
    (hright : Reads .unary rights right) :
    Reads op.level (lefts ++ ((Spelling.operator op).kinds ++ rights))
    (.binary .blank op left right) := by
  obtain ⟨l, hl, hlcore⟩ := hleft
  obtain ⟨r, hr, hrcore⟩ := hright
  obtain ⟨kind, operand, hkinds, hoperand, hop⟩ := op.exists_operator
  have hlevel : op.level.rank < 6 := by cases op <;> decide
  have hunary : Level.unary.rank = 6 := rfl
  have hrank := Level.rank_of_operand? hoperand
  refine ⟨.operation op l r, ?_, ?_⟩
  · rw [hkinds]
    exact .binary hoperand hop (hl.loosen (by omega)) (hr.loosen (by omega))
  · simp [BlockScript.Expr.operation, BlockScript.Expr.core, hlcore, hrcore]

mutual

private theorem reads_spelling : ∀ e : Expr, Reads e.level e.spelling.kinds e.tree
  | .name dotted => by
    rw [spelling, tree]
    exact ⟨_, .plain (.name dotted.dottedName), rfl⟩
  | .number n => by
    rw [spelling, tree]
    exact reads_number n
  | .text q => by
    rw [spelling, tree]
    exact ⟨_, .plain (.literal _), rfl⟩
  | .truth b => by
    rw [spelling, tree]
    exact reads_truth b
  | .call callee args => by
    rw [spelling, tree]
    exact reads_call callee (reads_spellAll args)
  | .cast target hscalar operand => by
    obtain ⟨t, hder, hcore⟩ := reads_spelling operand
    obtain ⟨word, hkinds, htype⟩ := type?_scalar hscalar
    rw [spelling, tree, Spelling.kinds_beside, hkinds]
    refine ⟨.cast .blank target t, .plain ?_, ?_⟩
    · exact .cast htype (hder.loosen (Nat.zero_le _))
    · rw [BlockScript.Expr.core, BlockScript.Expr.core, hcore]
  | .list items => by
    rw [spelling, tree]
    exact reads_list (reads_spellAll items)
  | .not inner => by
    obtain ⟨t, hder, hcore⟩ := reads_operand (reads_spelling inner)
    rw [spelling, tree]
    refine ⟨.negation t, .not hder, ?_⟩
    rw [BlockScript.Expr.negation, BlockScript.Expr.core, BlockScript.Expr.core, hcore]
  | .binary op left right => by
    rw [spelling, tree]
    exact reads_binary op (reads_operand (reads_spelling left))
      (reads_operand (reads_spelling right))
  | .group inner => by
    obtain ⟨t, hder, hcore⟩ := reads_spelling inner
    rw [spelling, tree]
    refine ⟨.group .blank t, .plain (.group (hder.loosen (Nat.zero_le _))), ?_⟩
    rw [BlockScript.Expr.core, BlockScript.Expr.core, hcore]

private theorem reads_spellAll : ∀ es : List Expr, ReadsAll (spellAll es) (treeAll es)
  | [] => rfl
  | e :: rest => by
    obtain ⟨t, hder, hcore⟩ := reads_spelling e
    have hrest := reads_spellAll rest
    rw [spellAll, treeAll]
    cases hwritten : spellAll rest with
    | none =>
      rw [hwritten] at hrest
      refine ⟨[t], .single (hder.loosen (Nat.zero_le _)), ?_⟩
      rw [show treeAll rest = [] from hrest]
      simp [hcore]
    | some more =>
      rw [hwritten] at hrest
      obtain ⟨ts, henum, hcores⟩ := hrest
      exact ⟨t :: ts, .more (hder.loosen (Nat.zero_le _)) henum, by simp [hcore, hcores]⟩

end

private theorem exists_derives (e : Expr) :
    ∃ t, Derives .disjunction e.spelling.kinds t ∧ t.core = e.tree.core := by
  obtain ⟨t, hder, hcore⟩ := reads_spelling e
  exact ⟨t, hder.loosen (Nat.zero_le _), hcore⟩

end Draft.Expr

/-! ### Lines -/

namespace Parser

instance : Sight (Token.Kind × Nat) := ⟨Token.mark, Prod.fst, fun _ => rfl⟩

open Draft (Decl Item)

variable {c : Cursor} {rest : List Token} {kinds : List Token.Kind} {next : Option Token.Kind}
  {seen : List (Token.Kind × Nat)} {after : Option (Token.Kind × Nat)} (e : Draft.Expr)

private theorem Faces.indent (h : Faces seen after rest c) :
    c.indent = ((seen.head?.or after).map Prod.snd).getD 0 := by
  rw [← h.head?, Option.map_map]
  rfl

private theorem Passes.indented {p : Parser α} {post : α → Prop} (depth : Nat)
    (h : Passes p kinds (after.map Prod.fst) post) :
    Passes p (kinds.map (·, depth)) after post := by
  refine .of_kinds ?_
  rw [map_map]
  exact (map_id kinds).symm ▸ h

private theorem not_continues_newline : ∀ kind ∈ some Token.Kind.newline, ¬kind.Continues := by
  rintro _ ⟨⟩ (h | h | ⟨_, _, h⟩) <;> cases h

private theorem takes_expectLineEnd :
    Passes expectLineEnd [Token.Kind.newline] next fun _ => True := by
  refine .get fun c rest hc => ?_
  rw [if_neg (by simp [hc.isEmpty])]
  exact .accept rfl (.pure trivial)

private theorem takes_draft (hnext : ∀ kind ∈ next, ¬kind.Continues) :
    Passes expression e.spelling.kinds next (·.core = e.tree.core) := by
  obtain ⟨t, hder, hcore⟩ := e.exists_derives
  refine (takes_expression _ hder (Nat.le_refl _) (.of_not_continues hnext)).mono ?_
  rintro found rfl
  rw [← hcore, Expr.core_bare]

private theorem head_ne_colon (depth : Nat) :
    ∀ m ∈ (e.spelling.kinds.map (·, depth) ++ seen).head?.or after, m.1 ≠ .sign .colon := by
  obtain ⟨tree, hder, -⟩ := e.exists_derives
  obtain ⟨first, more, hkinds, hbeg⟩ := hder.begins
  rw [hkinds]
  rintro _ ⟨⟩ rfl
  exact hbeg

/-! ### Types and declarations -/

private theorem takes_typeName (type : DataType)
    (hnext : ∀ kind ∈ next, kind ≠ .sign .leftBracket) :
    Passes typeName (Spelling.type type).kinds next (· = type) := by
  -- The word of a type and the brackets after it, if it is a list.
  have hparts : ∃ word scalar, word.type? = some scalar ∧
      ((Spelling.type type).kinds = [.keyword word] ∧ scalar = type ∨
        (Spelling.type type).kinds = [.keyword word, .sign .leftBracket, .sign .rightBracket] ∧
          scalar.listOf? = some type) := by
    cases type
    case numberList => exact ⟨.numberType, .number, rfl, .inr ⟨rfl, rfl⟩⟩
    case stringList => exact ⟨.stringType, .string, rfl, .inr ⟨rfl, rfl⟩⟩
    all_goals exact ⟨_, _, rfl, .inl ⟨rfl, rfl⟩⟩
  obtain ⟨word, scalar, hscalar, hkinds⟩ := hparts
  refine .get fun c rest hc => ?_
  rcases hkinds with ⟨hkinds, rfl⟩ | ⟨hkinds, hlist⟩
  · rw [hkinds] at hc ⊢
    simp only [show c.kind? = some (.keyword word) from hc.kind?, hscalar]
    exact .pass fun _ => .accept_of_ne hnext (.pure rfl)
  · rw [hkinds] at hc ⊢
    simp only [show c.kind? = some (.keyword word) from hc.kind?, hscalar, hlist]
    exact .pass fun _ => .accept rfl (.expect rfl fun _ => .pure rfl)

/-- The kinds of the tokens of a type behind a colon, if there is one. -/
def typeKinds : Option DataType → List Token.Kind
  | none => []
  | some type => .sign .colon :: (Spelling.type type).kinds

private theorem kinds_header (word : Spelling) (name : Draft.Name) (type : Option DataType) :
    (Decl.header word name type).kinds = word.kinds ++ .name name.text :: typeKinds type := by
  cases type <;> rfl

private theorem kinds_valued (header : Spelling) (value : Draft.Expr) :
    (Decl.valued header value).kinds = header.kinds ++ .sign .assign :: value.spelling.kinds := rfl

private theorem takes_typeAnnotation (type : Option DataType)
    (hnext : ∀ kind ∈ next, kind ≠ .sign .colon ∧ kind ≠ .sign .leftBracket) :
    Passes typeAnnotation (typeKinds type) next (· = type) := by
  cases type with
  | none => exact .accept_of_ne (fun kind hkind => (hnext kind hkind).1) (.pure rfl)
  | some type =>
    refine .accept rfl ((takes_typeName type fun kind hkind => (hnext kind hkind).2).bind_nil ?_)
    rintro found rfl
    exact .pure rfl

/-- The kinds of the tokens of a value behind an equals sign, if there is one. -/
def valueKinds : Option Draft.Expr → List Token.Kind
  | none => []
  | some value => .sign .assign :: value.spelling.kinds

/-- The parser of a declaration and the word that it begins with. -/
def declaration : Decl → Keyword × Parser Stmt
  | .variable _ _ _ => (.varWord, variableDecl)
  | .constant _ _ _ => (.constWord, constantDecl)

/-- What is declared: its name, its type and its value. -/
def declared : Decl → Draft.Name × Option DataType × Option Draft.Expr
  | .variable name type value => (name, type, value)
  | .constant name type value => (name, type, some value)

private theorem kinds_decl (d : Decl) : d.spelling.kinds = .keyword (declaration d).1 ::
    .name (declared d).1.text :: (typeKinds (declared d).2.1 ++ valueKinds (declared d).2.2) := by
  cases d with
  | «variable» name type value =>
    cases value with
    | none => simp [Decl.spelling, kinds_header, declaration, declared, valueKinds]
    | some value =>
      simp [Decl.spelling, kinds_valued, kinds_header, declaration, declared, valueKinds]
  | constant name type value =>
    simp [Decl.spelling, kinds_valued, kinds_header, declaration, declared, valueKinds]

private theorem takes_declaration (d : Decl) :
    Passes (declaration d).2 (d.spelling.kinds ++ [.newline]) next (·.core = d.tree.core) := by
  have htype : Passes typeAnnotation (typeKinds (declared d).2.1)
      ((valueKinds (declared d).2.2 ++ [Token.Kind.newline]).head?.or next)
      (· = (declared d).2.1) := by
    refine takes_typeAnnotation _ ?_
    cases (declared d).2.2 <;> rintro _ ⟨⟩ <;> simp
  -- The line ends after the value.
  have hline {stmt : Stmt} (hstmt : stmt.core = d.tree.core) : Passes (do
        expectLineEnd
        return stmt) [Token.Kind.newline] next (·.core = d.tree.core) :=
    takes_expectLineEnd.bind_nil fun _ _ => .pure hstmt
  rw [kinds_decl]
  simp only [cons_append, append_assoc]
  cases d with
  | «variable» name type value =>
    refine .pass fun _ => .expectName rfl fun _ => htype.bind ?_
    rintro _ rfl
    cases value with
    | none =>
      refine .accept_of_ne ?_ (hline rfl)
      rintro _ ⟨⟩
      exact nofun
    | some value =>
      refine .accept rfl ?_
      rw [if_pos rfl, bind_map_left]
      refine (takes_draft value not_continues_newline).bind fun found hfound => hline ?_
      simp [Stmt.core, Decl.tree, declared, hfound]
  | constant name type value =>
    refine .pass fun _ => .expectName rfl fun _ => htype.bind ?_
    rintro _ rfl
    refine .expect rfl fun _ => (takes_draft value not_continues_newline).bind fun found hfound =>
      hline ?_
    simp [Stmt.core, Decl.tree, declared, hfound]

/-! ### Bodies -/

/-- Whether what follows ends a statement that is indented by `depth`. -/
def Follows (depth : Nat) (after : Option (Token.Kind × Nat)) : Prop :=
  ∀ m ∈ after, m.2 ≤ depth ∧ (m.2 = depth → m.1 ≠ .keyword .elifWord ∧ m.1 ≠ .keyword .elseWord)

/-- What is seen of lines. -/
def marksOf (lines : List SpelledLine) : List (Token.Kind × Nat) := lines.flatMap SpelledLine.marks

private theorem marksOf_linesAll (depth : Nat) (s : Draft.Stmt) (stmts : List Draft.Stmt) :
    marksOf (linesAll depth (s :: stmts)) =
      marksOf (s.lines depth) ++ marksOf (linesAll depth stmts) := by
  rw [linesAll]
  exact flatMap_append

/-- Whether a parser takes all drafted statements that have at most `n` tokens. -/
def TakesStmt (n : Nat) (p : Parser Stmt) : Prop :=
  ∀ (s : Draft.Stmt) (depth : Nat), (marksOf (s.lines depth)).length ≤ n →
    ∀ {after}, Follows depth after → Passes p (marksOf (s.lines depth)) after (·.core = s.tree.core)

private theorem marksOf_lines (s : Draft.Stmt) (depth : Nat) :
    ∃ kind more, marksOf (s.lines depth) = (kind, depth) :: more ∧ kind ≠ .keyword .elifWord ∧
      kind ≠ .keyword .elseWord := by
  cases s with
  | decl d =>
    rw [Draft.Stmt.lines, marksOf, flatMap_singleton, SpelledLine.marks, kinds_decl]
    refine ⟨_, _, rfl, ?_⟩
    cases d <;> simp [declaration]
  | call callee args =>
    rw [Draft.Stmt.lines, Draft.Expr.spelling]
    exact ⟨_, _, rfl, by simp, by simp⟩
  | assign target op value | branch condition first more otherwise =>
    rw [Draft.Stmt.lines]
    exact ⟨_, _, rfl, by simp, by simp⟩
  | loop kind first more =>
    rw [Draft.Stmt.lines]
    cases kind <;> exact ⟨_, _, rfl, by simp, by simp⟩

private theorem passes_recovering {p : Parser α} {post : α → Prop} (h : Passes p seen after post)
    (indent : Nat) :
    Passes (recovering p indent) seen after fun found => ∃ a, found = some a ∧ post a := by
  intro rest c hc
  obtain ⟨a, c', hrun, ha, hpost⟩ := (h rest c hc).exists_ok
  unfold Ends recovering
  rw [hrun]
  exact ⟨⟨a, rfl, ha⟩, hpost⟩

section Bodies

variable {stmt : Parser Stmt} {n : Nat} (hstmt : TakesStmt n stmt)

include hstmt

private theorem takes_bodyLines (hafter : ∀ m ∈ after, m.2 ≤ depth) (stmts : List Draft.Stmt) :
    ∀ steps : Nat, (marksOf (linesAll (depth + 1) stmts)).length ≤ n →
      (marksOf (linesAll (depth + 1) stmts)).length ≤ steps →
      Passes (bodyLines stmt depth (depth + 1) steps) (marksOf (linesAll (depth + 1) stmts)) after
      (·.map Stmt.core = (treeAll stmts).map Stmt.core) := by
  induction stmts with
  | nil =>
    intro steps _ _
    rw [linesAll]
    cases steps with
    | zero => exact .pure rfl
    | succ steps =>
      refine .get fun c rest hc => ?_
      have hind : c.indent = (after.map Prod.snd).getD 0 := hc.indent
      rw [if_pos, treeAll]
      · exact .pure rfl
      cases after with
      | none => simp [hind]
      | some m => simp [hind, hafter m rfl]
  | cons s stmts ih =>
    intro steps hn hsteps
    obtain ⟨kind, more, hfirst, -⟩ := marksOf_lines s (depth + 1)
    rw [marksOf_linesAll] at hn hsteps ⊢
    rw [length_append] at hn hsteps
    have hpos : 0 < (marksOf (s.lines (depth + 1))).length := by simp [hfirst]
    obtain ⟨steps, rfl⟩ : ∃ k, steps = k + 1 := ⟨steps - 1, by omega⟩
    have hfollows :
        Follows (depth + 1) ((marksOf (linesAll (depth + 1) stmts)).head?.or after) := by
      intro m hm
      cases stmts with
      | nil =>
        have hle := hafter m hm
        exact ⟨by omega, fun h => by omega⟩
      | cons s' stmts =>
        obtain ⟨kind', more', hnext, hkind'⟩ := marksOf_lines s' (depth + 1)
        rw [marksOf_linesAll, hnext] at hm
        cases hm
        exact ⟨Nat.le_refl _, fun _ => hkind'⟩
    refine .get fun c rest hc => ?_
    rw [hfirst] at hc
    have hind : c.indent = depth + 1 := hc.indent
    rw [if_neg (by simp [hc.isEmpty, hind]), if_neg (by simp [hind])]
    refine (passes_recovering (hstmt s _ (by omega) hfollows) _).bind ?_
    rintro _ ⟨found, rfl, hfound⟩
    refine (ih steps (by omega) (by omega)).bind_nil fun more hmore => .pure ?_
    rw [treeAll, map_append, hmore, map_cons, ← hfound]
    rfl

private theorem takes_body (first : Draft.Stmt) (more : List Draft.Stmt)
    (hn : (marksOf (linesAll (depth + 1) (first :: more))).length ≤ n)
    (hafter : ∀ m ∈ after, m.2 ≤ depth) :
    Passes (body stmt depth) ((.sign .colon, depth) :: (.newline, depth) ::
        marksOf (linesAll (depth + 1) (first :: more))) after
      (·.map Stmt.core = (first.tree :: treeAll more).map Stmt.core) := by
  refine .expect rfl fun _ => .get fun c rest hc => ?_
  rw [if_neg (by simp [hc.kind?, Sight.kind])]
  refine .accept rfl (.get fun c rest hc => ?_)
  have hsteps := hc.length_le
  obtain ⟨kind, more', hfirst, -⟩ := marksOf_lines first (depth + 1)
  have hall : marksOf (linesAll (depth + 1) (first :: more)) =
      (kind, depth + 1) :: (more' ++ marksOf (linesAll (depth + 1) more)) := by
    rw [marksOf_linesAll, hfirst]
    rfl
  rw [hall] at hc
  have hind : c.indent = depth + 1 := hc.indent
  rw [if_neg (by simp [hc.isEmpty, hind]), hind]
  refine (takes_bodyLines hstmt hafter (first :: more) _ hn hsteps).mono fun found hfound => ?_
  rwa [treeAll] at hfound

private theorem takes_conditional (condition : Draft.Expr) (first : Draft.Stmt)
    (more otherwise : List Draft.Stmt) {steps : Nat} (hsteps : 0 < steps)
    (hn : (marksOf ((Draft.Stmt.branch condition first more otherwise).lines depth)).length ≤ n + 1)
    (hafter : Follows depth after) :
    Passes (conditional stmt steps)
    (marksOf ((Draft.Stmt.branch condition first more otherwise).lines depth)) after
      (·.core = (Draft.Stmt.branch condition first more otherwise).tree.core) := by
  obtain ⟨steps, rfl⟩ : ∃ k, steps = k + 1 := ⟨steps - 1, by omega⟩
  -- What follows the first branch: the other one, or what follows the condition.
  let others :=
    if otherwise.isEmpty then [] else (.keyword .elseWord, depth) :: (.sign .colon, depth) ::
    (.newline, depth) :: marksOf (linesAll (depth + 1) otherwise)
  have hmarks : marksOf ((Draft.Stmt.branch condition first more otherwise).lines depth) =
      (.keyword .ifWord, depth) ::
      (condition.spelling.kinds.map (·, depth) ++ ((.sign .colon, depth) ::
        (.newline, depth) :: marksOf (linesAll (depth + 1) (first :: more)) ++ others)) := by
    rw [Draft.Stmt.lines, linesAll]
    cases otherwise <;> simp [marksOf, SpelledLine.marks, others]
  rw [hmarks] at hn ⊢
  simp only [length_append, length_cons] at hn
  refine .get fun c rest hc => ?_
  rw [show c.indent = depth from hc.indent]
  refine .pass fun start => (Passes.indented depth (takes_draft condition ?_)).bind
    fun cond hcond => ?_
  · exact not_continues_sign (by simp)
  have hothers : ∀ m ∈ others.head?.or after, m.2 ≤ depth := by
    intro m hm
    cases otherwise with
    | nil => exact (hafter m hm).1
    | cons s stmts =>
      cases hm
      exact (Nat.le_refl _)
  refine (takes_body hstmt first more (by omega) hothers).bind fun thenBody hthen =>
    .get fun c₂ rest₂ hc₂ => ?_
  have hdone (elseBody : List Stmt)
      (helse : elseBody.map Stmt.core = (treeAll otherwise).map Stmt.core) :
      (Stmt.branch cond thenBody elseBody (start.merge cond.span)).core =
        (Draft.Stmt.branch condition first more otherwise).tree.core := by
    simp only [Stmt.core, Draft.Stmt.tree, Stmt.coreAll_eq_map, hcond, hthen, helse]
  cases otherwise with
  | nil =>
    have hnone (word : Keyword) (hword : word = .elifWord ∨ word = .elseWord) :
        ¬(c₂.kind? == some (.keyword word) && c₂.indent == depth) = true := by
      intro h
      simp only [Bool.and_eq_true, beq_iff_eq] at h
      obtain ⟨m, hm, hkind⟩ := Option.map_eq_some_iff.mp (hc₂.kind?.symm.trans h.1)
      have hm : after = some m := hm
      have hind : c₂.indent = m.2 := by
        rw [hc₂.indent, hm]
        rfl
      have hne := (hafter m hm).2 (hind.symm.trans h.2)
      rcases hword with rfl | rfl
      · exact hne.1 hkind
      · exact hne.2 hkind
    rw [if_neg (hnone _ (.inl rfl)), if_neg (hnone _ (.inr rfl))]
    exact .pure (hdone [] rfl)
  | cons s stmts =>
    have hkind : c₂.kind? = some (.keyword .elseWord) := hc₂.kind?
    have hind : c₂.indent = depth := hc₂.indent
    rw [if_neg (by simp [hkind]), if_pos (by simp [hkind, hind])]
    have hlen : (marksOf (linesAll (depth + 1) (s :: stmts))).length + 3 = others.length := rfl
    refine .pass fun _ => (takes_body hstmt s stmts (by omega) fun m hm => (hafter m hm).1).bind_nil
      fun elseBody helseBody => .pure (hdone elseBody ?_)
    rw [helseBody, treeAll]

private theorem takes_loop (kind : Draft.Loop) (first : Draft.Stmt) (more : List Draft.Stmt)
    {word : Keyword} (hword : (marksOf ((Draft.Stmt.loop kind first more).lines depth)).head? =
    some (.keyword word, depth))
    (hn : (marksOf ((Draft.Stmt.loop kind first more).lines depth)).length ≤ n + 1)
    (hafter : Follows depth after) :
    Passes (loopStatement stmt word) (marksOf ((Draft.Stmt.loop kind first more).lines depth)) after
      (·.core = (Draft.Stmt.loop kind first more).tree.core) := by
  have hmarks : marksOf ((Draft.Stmt.loop kind first more).lines depth) = kind.spelling.kinds.map
      (·, depth) ++ ((.sign .colon, depth) :: (.newline, depth) ::
      marksOf (linesAll (depth + 1) (first :: more))) := by
    rw [Draft.Stmt.lines, linesAll]
    simp [marksOf, SpelledLine.marks]
  rw [hmarks] at hn hword ⊢
  simp only [length_append, length_cons] at hn
  refine .get fun c rest hc => ?_
  have hind : c.indent = depth := by
    rw [hc.indent, hword]
    rfl
  rw [hind]
  -- The body, after the header has been read.
  have hbody (kind' : LoopKind) {span : Span} (hkind : kind'.core = kind.tree.core) :
      Passes (do return Stmt.loop kind' (← body stmt depth) span)
      ((.sign .colon, depth) :: (.newline, depth) ::
        marksOf (linesAll (depth + 1) (first :: more))) after
        (·.core = (Draft.Stmt.loop kind first more).tree.core) := by
    refine (takes_body hstmt first more (by omega) fun m hm => (hafter m hm).1).bind_nil
      fun lines hlines => .pure ?_
    simp only [Stmt.core, Draft.Stmt.tree, Stmt.coreAll_eq_map, hkind, hlines]
  cases kind with
  | forever =>
    cases hword
    exact .pass fun _ => .sees rfl (hbody .forever rfl)
  | times count =>
    cases hword
    refine .pass fun _ => .sees_of_ne (head_ne_colon count depth) ?_
    refine (Passes.indented depth (takes_draft count ?_)).bind fun found hfound => ?_
    · exact not_continues_sign (by simp)
    exact hbody (.times found) (congrArg LoopKind.times hfound)
  | «until» condition =>
    cases hword
    refine .pass fun _ => (Passes.indented depth (takes_draft condition ?_)).bind
      fun found hfound => ?_
    · exact not_continues_sign (by simp)
    exact hbody (.until found) (congrArg LoopKind.until hfound)

end Bodies

/-! ### Statements -/

private theorem kinds_bracketed (written : Option Spelling) :
    (Spelling.bracketed .round written).kinds = .sign .leftParen ::
      ((written.map Spelling.kinds).getD [] ++ [.sign .rightParen]) := by
  cases written <;> rfl

private theorem takes_callStatement (callee : Draft.Dotted) (args : List Draft.Expr) :
    Passes callOrAssignment ((Draft.Expr.call callee args).spelling.kinds ++ [.newline]) next
      (·.core = (Draft.Stmt.call callee args).tree.core) := by
  rw [Draft.Expr.spelling, Spelling.kinds_beside, kinds_bracketed, append_assoc]
  obtain ⟨es, hargs, hcore⟩ :
      ∃ es, (es = [] ∧ ((Draft.Expr.spellAll args).map Spelling.kinds).getD [] = [] ∨
      Enumerates (((Draft.Expr.spellAll args).map Spelling.kinds).getD []) es) ∧
      es.map Expr.core = (Draft.Expr.treeAll args).map Expr.core := by
    have hread := Draft.Expr.reads_spellAll args
    cases hwritten : Draft.Expr.spellAll args with
    | none =>
      rw [hwritten] at hread
      exact ⟨[], .inl ⟨rfl, rfl⟩, by rw [show Draft.Expr.treeAll args = [] from hread]⟩
    | some written =>
      rw [hwritten] at hread
      obtain ⟨es, henum, hcore⟩ := hread
      exact ⟨es, .inr henum, hcore⟩
  refine (takes_dottedName callee.dottedName ?_).bind ?_
  · rintro _ ⟨⟩
    exact nofun
  rintro ⟨name, span⟩ rfl
  refine .get fun c rest hc => .sees rfl ?_
  refine (takes_arguments (takes_expression _) hargs (Nat.le_refl _)).bind ?_
  rintro ⟨found, stop⟩ rfl
  refine takes_expectLineEnd.bind_nil fun _ _ => .pure ?_
  have hfound : found.map Expr.core = (Draft.Expr.treeAll args).map Expr.core := by
    rw [← hcore, map_map]
    exact map_congr_left fun e _ => (Expr.core_bare e).symm
  simp only [Stmt.core, Draft.Stmt.tree, hfound]

private theorem takes_assignment (target : Draft.Dotted) (op : AssignOp) (value : Draft.Expr) :
    Passes callOrAssignment
      (target.spelling.kinds ++ ((Spelling.assignment op).kinds ++ value.spelling.kinds) ++
      [.newline]) next (·.core = (Draft.Stmt.assign target op value).tree.core) := by
  obtain ⟨sign, hsign, hop⟩ :
      ∃ sign, (Spelling.assignment op).kinds = [.sign sign] ∧ sign.assignOp? = some op := by
    cases op <;> exact ⟨_, rfl, rfl⟩
  have hne {other : Sign} (hother : other.assignOp? = none) :
      ∀ kind ∈ some (Token.Kind.sign sign), kind ≠ .sign other := by
    rintro _ ⟨⟩ ⟨⟩
    rw [hop] at hother
    cases hother
  rw [hsign, append_assoc]
  refine (takes_dottedName target.dottedName (hne rfl)).bind ?_
  rintro ⟨name, span⟩ rfl
  refine .get fun c rest hc => .sees_of_ne (hne rfl) ?_
  simp only [show c.kind? = some (.sign sign) from hc.kind?, hop]
  refine .pass fun _ => (takes_draft value not_continues_newline).bind fun found hfound => ?_
  refine takes_expectLineEnd.bind_nil fun _ _ => .pure ?_
  simp only [Stmt.core, Draft.Stmt.tree, hfound]

private theorem takes_statementAt (depth : Nat) : TakesStmt depth (statementAt depth) := by
  induction depth with
  | zero =>
    intro s indent hn
    obtain ⟨kind, more, hfirst, -⟩ := marksOf_lines s indent
    rw [hfirst] at hn
    cases hn
  | succ depth ih =>
    intro s indent hn after hafter
    refine .get fun c rest hc => ?_
    cases s with
    | decl d =>
      rw [Draft.Stmt.lines, marksOf, flatMap_singleton] at hc ⊢
      have hdecl : Passes (declaration d).2 _ after _ :=
        Passes.indented indent (takes_declaration d)
      rw [SpelledLine.marks, kinds_decl] at hc
      rw [show c.kind? = some (.keyword (declaration d).1) from hc.kind?, Draft.Stmt.tree]
      cases d <;> exact hdecl
    | call callee args =>
      rw [Draft.Stmt.lines, marksOf, flatMap_singleton] at hc ⊢
      have hcall : Passes callOrAssignment _ after _ :=
        Passes.indented indent (takes_callStatement callee args)
      rw [SpelledLine.marks, Draft.Expr.spelling] at hc
      rw [show c.kind? = some (.name callee.first.text) from hc.kind?]
      exact hcall
    | assign target op value =>
      rw [Draft.Stmt.lines, marksOf, flatMap_singleton] at hc ⊢
      rw [show c.kind? = some (.name target.first.text) from hc.kind?]
      exact Passes.indented indent (takes_assignment target op value)
    | branch condition first more otherwise =>
      have hkind : c.kind? = some (.keyword .ifWord) := by
        rw [Draft.Stmt.lines] at hc
        exact hc.kind?
      rw [hkind]
      refine .remaining fun steps hsteps => ?_
      obtain ⟨kind, more', hfirst, -⟩ :=
        marksOf_lines (.branch condition first more otherwise) indent
      rw [hfirst] at hsteps
      exact takes_conditional ih condition first more otherwise
        (Nat.lt_of_lt_of_le (Nat.zero_lt_succ _) hsteps) hn hafter
    | loop kind first more =>
      have htake {word : Keyword} (hword : _ = some (Token.Kind.keyword word, indent)) :=
        takes_loop ih kind first more hword hn hafter
      rw [Draft.Stmt.lines] at hc htake ⊢
      cases kind with
      | «until» condition =>
        rw [show c.kind? = some (.keyword .untilWord) from hc.kind?]
        exact htake rfl
      | _ =>
        rw [show c.kind? = some (.keyword .loopWord) from hc.kind?]
        exact htake rfl

private theorem takes_statement (n : Nat) : TakesStmt n statement := by
  intro s depth _ after hafter
  exact .remaining fun steps hsteps => takes_statementAt steps s depth hsteps hafter

end Parser

end

/-!
## Drafted programs are read back

A program that is written down item by item is parsed to its tree.
-/

open List Cursor

namespace Parser

open Draft (Decl Item)

variable {next : Option Token.Kind} {after : Option (Token.Kind × Nat)}
  {params : List (Draft.Name × DataType)}
  (name : Draft.Name) (type : DataType) (first : Draft.Stmt) (more : List Draft.Stmt)

/-! ### Parameters -/

/-- The parameter that a name and a type stand for. -/
def parameterTree :
    Draft.Name × DataType → Parameter := fun (name, type) => ⟨name.text, type, .nowhere⟩

private theorem takes_parameter (hnext : ∀ kind ∈ next, kind ≠ .sign .leftBracket) :
    Passes parameter (name.spelling.heads.spaced (.type type)).kinds next
    (·.core = parameterTree (name, type)) := by
  refine .expectName rfl fun _ => .expect rfl fun _ => (takes_typeName type hnext).bind_nil ?_
  rintro found rfl
  exact .pure rfl

private theorem spellParams_cons (params : List (Draft.Name × DataType)) :
    ∃ written kinds, Item.spellParams ((name, type) :: params) = some written ∧
      written.kinds = .name name.text :: kinds := by
  rw [Item.spellParams]
  split <;> exact ⟨_, _, rfl, rfl⟩

private theorem spellParams_eq_none (h : Item.spellParams params = none) : params = [] := by
  cases params with
  | nil => rfl
  | cons param params =>
    obtain ⟨written, kinds, hwritten, -⟩ := spellParams_cons param.1 param.2 params
    rw [hwritten] at h
    cases h

private theorem spellParams_kinds {written : Spelling}
    (h : Item.spellParams params = some written) :
    ∃ name kinds, written.kinds = .name name :: kinds := by
  cases params with
  | nil => cases h
  | cons param params =>
    obtain ⟨written', kinds, hwritten, hkinds⟩ := spellParams_cons param.1 param.2 params
    cases hwritten.symm.trans h
    exact ⟨_, _, hkinds⟩

private theorem takes_parameterList (params : List (Draft.Name × DataType)) :
    ∀ (written : Spelling) (steps : Nat), Item.spellParams params = some written →
      written.kinds.length ≤ steps → Passes (parameterList steps) written.kinds
      (some (.sign .rightParen)) (·.map Parameter.core = params.map parameterTree) := by
  have hne {kind : Token.Kind} (hkind : kind ≠ .sign .rightParen) :
      ∀ k ∈ some (Token.Kind.sign .rightParen), k ≠ kind := by
    rintro _ ⟨⟩
    exact hkind.symm
  induction params with
  | nil =>
    intro written steps hwritten
    cases hwritten
  | cons param params ih =>
    obtain ⟨name, type⟩ := param
    intro written steps hwritten hsteps
    have hpos : 0 < written.kinds.length := length_pos_iff.mpr written.kinds_ne_nil
    obtain ⟨steps, rfl⟩ : ∃ k, steps = k + 1 := ⟨steps - 1, by omega⟩
    rw [Item.spellParams] at hwritten
    cases hmore : Item.spellParams params with
    | none =>
      rw [hmore] at hwritten
      cases hwritten
      refine (takes_parameter name type (hne nofun)).bind_nil fun found hfound => ?_
      refine .accept_of_ne (hne nofun) (.pure ?_)
      rw [spellParams_eq_none hmore, map_singleton, hfound]
      rfl
    | some more =>
      rw [hmore] at hwritten
      cases hwritten
      rw [Spelling.kinds_comma] at hsteps ⊢
      simp only [length_append, length_cons] at hsteps
      refine (takes_parameter name type ?_).bind fun found hfound => .accept rfl ?_
      · rintro _ ⟨⟩
        exact nofun
      refine (ih more steps hmore (by omega)).bind_nil fun rest' hrest' => .pure ?_
      rw [map_cons, hfound, hrest', map_cons]

/-! ### Items -/

private theorem marksOf_block (header : Spelling) (first : Draft.Stmt) (more : List Draft.Stmt) :
    marksOf (⟨0, header.heads⟩ :: (first.lines 1 ++ Draft.Stmt.linesAll 1 more)) = header.kinds.map
    (·, 0) ++
      ((.sign .colon, 0) :: (.newline, 0) :: marksOf (Draft.Stmt.linesAll 1 (first :: more))) := by
  rw [Draft.Stmt.linesAll]
  simp [marksOf, SpelledLine.marks]

private theorem takes_block (hafter : ∀ m ∈ after, m.2 = 0) :
    Passes (body statement 0)
    ((.sign .colon, 0) :: (.newline, 0) :: marksOf (Draft.Stmt.linesAll 1 (first :: more)))
      after (·.map Stmt.core = (first.tree :: Draft.Stmt.treeAll more).map Stmt.core) :=
  takes_body (takes_statement _) first more (Nat.le_refl _) fun m hm => Nat.le_of_eq (hafter m hm)

/-- Whether a parser takes the tokens of an item. -/
def TakesItem (p : Parser Stmt) (i : Item) : Prop :=
  ∀ {after}, (∀ m ∈ after, m.2 = 0) → Passes p (marksOf i.lines) after (·.core = i.tree.core)

private theorem takes_handler (param : Option Draft.Expr) (first : Draft.Stmt)
    (more : List Draft.Stmt) : TakesItem handler (.handler name param first more) := by
  intro after hafter
  have hheader : (Item.handler name param first more).header.kinds =
      .sign .atSign :: .name name.text :: (param.map (·.spelling.kinds)).getD [] := by
    cases param <;> rfl
  rw [Item.lines, marksOf_block, hheader]
  refine .get fun c rest hc => ?_
  rw [show c.indent = 0 from hc.indent]
  refine .pass fun start => .expectName rfl fun nameSpan => ?_
  -- What comes after the parameter, which may be missing.
  have hbody (found : Option Expr) (hfound : found.map Expr.core = param.map (·.tree.core)) :
      Passes (do
          let lines ← body statement 0
          return Stmt.event .builtin name.text found lines
            (start.merge ((found.map Expr.span).getD nameSpan)) (← get).lastLine)
        ((.sign .colon, 0) :: (.newline, 0) :: marksOf (Draft.Stmt.linesAll 1 (first :: more)))
          after
        (·.core = (Item.handler name param first more).tree.core) := by
    refine (takes_block first more hafter).bind_nil fun lines hlines => .get fun _ _ _ => .pure ?_
    simp only [Stmt.core, Item.tree, Stmt.coreAll_eq_map, hlines, hfound, Option.map_map]
    rfl
  cases param with
  | none => exact .sees rfl (hbody none rfl)
  | some e =>
    refine .sees_of_ne (head_ne_colon e 0) ?_
    rw [if_neg Bool.false_ne_true, bind_map_left]
    refine (Passes.indented 0 (takes_draft e ?_)).bind fun found hfound => hbody (some found)
      (congrArg some hfound)
    exact not_continues_sign (by simp)

private theorem takes_eventDecl : TakesItem eventDecl (.event name first more) := by
  intro after hafter
  rw [Item.lines, marksOf_block]
  refine .get fun c rest hc => ?_
  rw [show c.indent = 0 from hc.indent]
  refine .pass fun _ => .expectName rfl fun _ => ?_
  refine (takes_block first more hafter).bind_nil fun lines hlines => .get fun _ _ _ => .pure ?_
  simp only [Stmt.core, Item.tree, Stmt.coreAll_eq_map, hlines, Option.map_none]

private theorem takes_functionDecl (params : List (Draft.Name × DataType)) (first : Draft.Stmt)
    (more : List Draft.Stmt) : TakesItem functionDecl (.function name params first more) := by
  intro after hafter
  have hheader :
      (Item.function name params first more).header.kinds = .keyword .funcWord :: .name name.text ::
      .sign .leftParen ::
      (((Item.spellParams params).map Spelling.kinds).getD [] ++ [.sign .rightParen]) := by
    rw [← kinds_bracketed]
    rfl
  rw [Item.lines, marksOf_block, hheader]
  simp only [map_cons, map_append, cons_append, append_assoc]
  refine .get fun c rest hc => ?_
  rw [show c.indent = 0 from hc.indent]
  refine .pass fun start => .expectName rfl fun _ => .expect rfl fun _ => ?_
  -- What comes after the parameters, which may be missing.
  have hbody (found : List Parameter)
      (hfound : found.map Parameter.core = params.map parameterTree) : Passes (do
          let stop ← expect (.sign .rightParen) .parameterEnd
          let lines ← body statement 0
          return Stmt.funcDecl name.text found lines (start.merge stop) (← get).lastLine)
        ((.sign .rightParen, 0) :: (.sign .colon, 0) :: (.newline, 0) ::
          marksOf (Draft.Stmt.linesAll 1 (first :: more))) after
        (·.core = (Item.function name params first more).tree.core) := by
    refine .expect rfl fun _ => (takes_block first more hafter).bind_nil fun lines hlines =>
      .get fun _ _ _ => .pure ?_
    simp only [Stmt.core, Item.tree, Stmt.coreAll_eq_map, hlines, hfound, map_map]
    rfl
  cases hwritten : Item.spellParams params with
  | none =>
    cases spellParams_eq_none hwritten
    exact .sees rfl (hbody [] rfl)
  | some written =>
    refine .sees_of_ne ?_ (.remaining fun steps hsteps => ?_)
    · obtain ⟨name, kinds, hkinds⟩ := spellParams_kinds hwritten
      rw [Option.map_some, Option.getD_some, hkinds]
      rintro _ ⟨⟩ ⟨⟩
    · refine (Passes.indented 0 (takes_parameterList params written steps hwritten ?_)).bind hbody
      exact Nat.le_trans (by simp) hsteps

private theorem takes_item (i : Item) : TakesItem item i := by
  intro after hafter
  refine .get fun c rest hc => ?_
  cases i with
  | decl d =>
    rw [Item.lines, marksOf, flatMap_singleton] at hc ⊢
    have htake : Passes (declaration d).2 _ after _ := Passes.indented 0 (takes_declaration d)
    rw [SpelledLine.marks, kinds_decl] at hc
    rw [show c.kind? = some (.keyword (declaration d).1) from hc.kind?]
    cases d <;> exact htake
  | handler name param first more =>
    have hkind : c.kind? = some (.sign .atSign) := by
      cases param <;> exact hc.kind?
    rw [hkind]
    exact takes_handler name param first more hafter
  | event name first more =>
    rw [show c.kind? = some (.keyword .eventWord) from hc.kind?]
    exact takes_eventDecl name first more hafter
  | function name params first more =>
    rw [show c.kind? = some (.keyword .funcWord) from hc.kind?]
    exact takes_functionDecl name params first more hafter

private theorem marksOf_item (i : Item) :
    ∃ kind more, marksOf i.lines = (kind, 0) :: more ∧ kind ≠ .newline := by
  cases i with
  | decl d =>
    rw [Item.lines, marksOf, flatMap_singleton, SpelledLine.marks, kinds_decl]
    exact ⟨_, _, rfl, by rintro ⟨⟩⟩
  | handler name param first more => cases param <;> exact ⟨_, _, rfl, by rintro ⟨⟩⟩
  | event name first more => exact ⟨_, _, rfl, by rintro ⟨⟩⟩
  | function name params first more => exact ⟨_, _, rfl, by rintro ⟨⟩⟩

private theorem takes_items (drafts : List Item) :
    ∀ steps : Nat, (marksOf (drafts.flatMap Item.lines)).length ≤ steps → Passes (items steps)
      (marksOf (drafts.flatMap Item.lines)) none (·.map Stmt.core = drafts.map (·.tree.core)) := by
  induction drafts with
  | nil =>
    intro steps _
    cases steps with
    | zero => exact .pure rfl
    | succ steps =>
      refine .get fun c rest hc => ?_
      have hnil : c.rest = [] := by simpa [marksOf] using hc.head?
      rw [if_pos (by simp [hnil])]
      exact .pure rfl
  | cons i drafts ih =>
    intro steps hsteps
    have hmarks : marksOf ((i :: drafts).flatMap Item.lines) =
        marksOf i.lines ++ marksOf (drafts.flatMap Item.lines) := by
      rw [flatMap_cons]
      exact flatMap_append
    obtain ⟨kind, more, hfirst, hkind⟩ := marksOf_item i
    have hpos : 0 < (marksOf i.lines).length := by simp [hfirst]
    rw [hmarks] at hsteps ⊢
    rw [length_append] at hsteps
    obtain ⟨steps, rfl⟩ : ∃ k, steps = k + 1 := ⟨steps - 1, by omega⟩
    have hafter : ∀ m ∈ (marksOf (drafts.flatMap Item.lines)).head?.or none, m.2 = 0 := by
      intro m hm
      cases drafts with
      | nil => cases hm
      | cons j drafts =>
        obtain ⟨kind, more, hnext, -⟩ := marksOf_item j
        rw [flatMap_cons, marksOf, flatMap_append, ← marksOf, hnext] at hm
        cases hm
        rfl
    refine .get fun c rest hc => ?_
    rw [hfirst] at hc
    have hind : c.indent = 0 := hc.indent
    rw [if_neg (by simp [hc.isEmpty])]
    refine .accept_of_ne ?_ ?_
    · rw [hfirst]
      rintro _ ⟨⟩
      exact hkind
    rw [if_neg Bool.false_ne_true, if_neg (by simp [hind])]
    refine (passes_recovering (takes_item i hafter) 0).bind ?_
    rintro _ ⟨found, rfl, hfound⟩
    refine (ih steps (by omega)).bind_nil fun more hmore => .pure ?_
    rw [map_append, hmore, map_cons, ← hfound]
    rfl

end Parser

/-- A program that is written down is scanned and parsed without a fault into the program that was
written. -/
theorem Draft.parse_scan_text (path : String) (items : List Draft.Item) :
    let scanned := scan path (Source.ofText (Draft.text items))
    scanned.fault = none ∧ (parse scanned.tokens).errors = [] ∧
      (parse scanned.tokens).program.statements.map Stmt.core = items.map (·.tree.core) := by
  obtain ⟨hfault, htoks⟩ := SpelledLine.scan_text path (items.flatMap Item.lines)
  refine ⟨hfault, ?_⟩
  obtain ⟨ts, eof, hscan, heof, hplain⟩ := exists_eof_of_scan hfault
  rw [Draft.text]
  rw [hscan] at htoks ⊢
  rw [map_append] at htoks
  have hmarks : ts.map Token.mark = Parser.marksOf (items.flatMap Item.lines) :=
    append_inj_left' htoks rfl
  have hlen : (Parser.marksOf (items.flatMap Item.lines)).length ≤ ts.length := by simp [← hmarks]
  obtain ⟨statements, c, hrun, hstmts, -, herrs⟩ := (Parser.takes_items items ts.length hlen []
    { rest := ts, ending := eof.span } ⟨ts, (append_nil ts).symm, hmarks, rfl⟩).exists_ok
  rw [parse_of_run hplain heof hrun]
  exact ⟨herrs, hstmts⟩

end BlockScript
