import BlockScript.Proofs.ExpressionGrammar
import BlockScript.Proofs.Spelling

/-!
# Drafts of programs

A draft is a program made of the forms that can be written down: names that are not reserved, texts
without quotes and line breaks, numbers given by their digits, bodies that are not empty, and items
only at the outermost level. A draft has a tree, and it has lines: one for each statement, a body
one space deeper than its header, an other branch only if it is not empty, and operands in
parentheses if they have operators of their own.
-/

namespace BlockScript

open List

mutual

/-- An expression without tags and without parentheses. -/
def Expr.core : Expr → Expr
  | .ident _ name => .ident .blank name
  | .literal _ value => .literal .blank value
  | .call _ callee args => .call .blank callee (coreAll args)
  | .cast _ target operand => .cast .blank target operand.core
  | .list _ items => .list .blank (coreAll items)
  | .not _ operand => .not .blank operand.core
  | .binary _ op left right => .binary .blank op left.core right.core
  | .group _ inner => inner.core

/-- Several expressions without tags and without parentheses. -/
def Expr.coreAll : List Expr → List Expr
  | [] => []
  | e :: rest => e.core :: coreAll rest

end

/-- The cores of all expressions. -/
@[simp] theorem Expr.coreAll_eq_map (es : List Expr) : Expr.coreAll es = es.map Expr.core := by
  induction es with
  | nil => rfl
  | cons e rest ih => rw [coreAll, ih, map_cons]

mutual

private theorem Expr.core_retag (f : Tag → Tag) : ∀ e : Expr, (e.retag f).core = e.core
  | .ident _ _ | .literal _ _ => rfl
  | .call _ _ args | .list _ args => by rw [retag, core, core, coreAll_retagAll f args]
  | .cast _ _ operand | .not _ operand | .group _ operand => by
    rw [retag, core, core, core_retag f operand]
  | .binary _ _ left right => by rw [retag, core, core, core_retag f left, core_retag f right]

private theorem Expr.coreAll_retagAll (f : Tag → Tag) :
    ∀ es : List Expr, coreAll (retagAll f es) = coreAll es
  | [] => rfl
  | e :: rest => by rw [retagAll, coreAll, coreAll, core_retag f e, coreAll_retagAll f rest]

end

/-- Tags are not part of the core. -/
theorem Expr.core_bare (e : Expr) : e.bare.core = e.core := core_retag _ e

/-- The header of a loop without tags and without parentheses. -/
def LoopKind.core : LoopKind → LoopKind
  | .forever => .forever
  | .times count => .times count.core
  | .until condition => .until condition.core

/-- A parameter without its place. -/
def Parameter.core (p : Parameter) : Parameter := { p with span := .nowhere }

mutual

/-- A statement without places and tags, and without parentheses in its expressions. -/
def Stmt.core : Stmt → Stmt
  | .varDecl name type value hoisted _ => .varDecl name type (value.map .core) hoisted .nowhere
  | .constDecl name type value _ => .constDecl name type value.core .nowhere
  | .funcDecl name params body _ _ => .funcDecl name (params.map .core) (coreAll body) .nowhere 0
  | .event kind name param body _ _ => .event kind name (param.map .core) (coreAll body) .nowhere 0
  | .call name args _ => .call name (args.map .core) .nowhere
  | .assign target op value _ => .assign target op value.core .nowhere
  | .branch condition thenBody elseBody _ =>
    .branch condition.core (coreAll thenBody) (coreAll elseBody) .nowhere
  | .loop kind body _ => .loop kind.core (coreAll body) .nowhere

/-- Several statements without places and tags, and without parentheses in their expressions. -/
def Stmt.coreAll : List Stmt → List Stmt
  | [] => []
  | stmt :: rest => stmt.core :: coreAll rest

end

/-- The cores of all statements. -/
@[simp] theorem Stmt.coreAll_eq_map (stmts : List Stmt) :
    Stmt.coreAll stmts = stmts.map Stmt.core := by
  induction stmts with
  | nil => rfl
  | cons stmt rest ih => rw [coreAll, ih, map_cons]

/-! ### Spellings of words and signs -/

namespace Spelling

/-- A reserved word. -/
def keyword (text : String) (word : Keyword) (hword : isWord text)
    (hkind : Token.Kind.ofWord text = .keyword word) : Spelling :=
  .word text (.keyword word) hword hkind

/-- A truth value. -/
def truth : Bool → Spelling
  | true => .word "true" (.literal (.boolean true)) (by decide) (by decide)
  | false => .word "false" (.literal (.boolean false)) (by decide) (by decide)

/-- The word of a type that is no list. -/
def scalar (target : DataType) : Spelling :=
  match target with
  | .number | .numberList => .keyword "number" .numberType (by decide) (by decide)
  | .string | .stringList => .keyword "string" .stringType (by decide) (by decide)
  | .boolean => .keyword "boolean" .booleanType (by decide) (by decide)
  | .image => .keyword "image" .imageType (by decide) (by decide)

variable (b : Bracket)

/-- Brackets end with a stop. -/
theorem stops_enclosed (s : Spelling) : Stops (enclosed b s).chars := by
  intro c hc
  cases hc
  cases b <;> rfl

private theorem stops_hollow : Stops (hollow b).chars := by
  intro c hc
  cases hc
  cases b <;> rfl

private theorem stops_colon : Stops colon.chars := by
  intro c hc
  cases hc
  rfl

/-- A type. -/
def type (t : DataType) : Spelling :=
  if t.isList then (scalar t).beside (hollow .square) (stops_hollow _) else scalar t

/-- A binary operator. -/
def operator : BinaryOp → Spelling
  | .add => .sign '+' rfl
  | .sub => .sign '-' rfl
  | .mul => .sign '*' rfl
  | .div => .sign '/' rfl
  | .mod => .sign '%' rfl
  | .lt => .sign '<' rfl
  | .gt => .sign '>' rfl
  | .eq => .signEq '=' rfl
  | .and => .keyword "and" .andWord (by decide) (by decide)
  | .or => .keyword "or" .orWord (by decide) (by decide)

/-- The operator of an assignment. -/
def assignment : AssignOp → Spelling
  | .set => .sign '=' rfl
  | .add => .signEq '+' rfl
  | .sub => .signEq '-' rfl
  | .mul => .signEq '*' rfl
  | .div => .signEq '/' rfl
  | .mod => .signEq '%' rfl

/-- Something in brackets, or nothing. -/
def bracketed (b : Bracket) : Option Spelling → Spelling
  | none => hollow b
  | some s => enclosed b s

/-- So do empty ones. -/
theorem stops_bracketed (s : Option Spelling) : Stops (bracketed b s).chars := by
  cases s with
  | none => exact stops_hollow b
  | some s => exact stops_enclosed b s

/-- A header with a colon after it. -/
def heads (s : Spelling) : Spelling := s.beside colon stops_colon

end Spelling

namespace Draft

/-- A name that is not reserved. -/
structure Name where
  /-- The name. -/
  text : String
  word : isWord text
  free : Token.Kind.ofWord text = .name text

/-- How a name is written. -/
def Name.spelling (name : Name) : Spelling := .word name.text (.name name.text) name.word name.free

/-- Names joined with dots. -/
structure Dotted where
  /-- The first name. -/
  first : Name
  /-- The names after it, each behind a dot. -/
  rest : List Name

namespace Dotted

/-- The dotted name. -/
def text (name : Dotted) :
    String := name.rest.foldl (fun text part => text ++ "." ++ part.text) name.first.text

/-- The kinds of its tokens. -/
def kinds (name : Dotted) : List Token.Kind :=
  .name name.first.text :: name.rest.flatMap fun part => [.sign .dot, .name part.text]

/-- The characters after the first name. -/
def restChars (parts : List Name) : List Char := parts.flatMap fun part => '.' :: part.text.toList

private theorem toList_text (name : Dotted) :
    name.text.toList = name.first.text.toList ++ restChars name.rest := by
  obtain ⟨first, rest⟩ := name
  change (rest.foldl (fun text (part : Name) => text ++ "." ++ part.text) first.text).toList = _
  generalize first.text = text
  induction rest generalizing text with
  | nil => simp [restChars]
  | cons part rest ih =>
    rw [foldl_cons, ih]
    simp [restChars]

variable (parts : List Name)

private theorem isNamePart_head? {rest : List Char}
    (hrest : ∀ d ∈ rest.head?, isNamePart d = false) :
    ∀ d ∈ (restChars parts ++ rest).head?, isNamePart d = false := by
  intro d hd
  cases parts with
  | nil => exact hrest d hd
  | cons _ _ =>
    cases hd
    decide

private theorem lexes_parts {rest : List Char} {more : List Token.Kind}
    (hrest : ∀ d ∈ rest.head?, isNamePart d = false) (hmore : Lexes rest more) :
    Lexes (restChars parts ++ rest)
      ((parts.flatMap fun part => [.sign .dot, .name part.text]) ++ more) := by
  induction parts with
  | nil => exact hmore
  | cons part parts ih =>
    have hlexes := Lexes.single (c := '.') rfl (.ofWord part.word (isNamePart_head? parts hrest) ih)
    rw [part.free] at hlexes
    simpa [restChars] using hlexes

/-- How a dotted name is written. -/
def spelling (name : Dotted) : Spelling where
  chars := name.text.toList
  kinds := name.kinds
  lexes {rest more} hrest hmore := by
    have hstop : ∀ d ∈ rest.head?, isNamePart d = false :=
      fun d hd => isNamePart_of_isStop (hrest d hd)
    have hlexes := Lexes.ofWord name.first.word (isNamePart_head? name.rest hstop)
      (lexes_parts name.rest hstop hmore)
    rw [name.first.free] at hlexes
    rw [toList_text, append_assoc]
    exact hlexes
  balanced depth := by
    have hparts : ∀ (parts : List Name) (depth : Nat), bracketsAfterAll
        (parts.flatMap fun part => [.sign .dot, .name part.text]) depth = depth := by
      intro parts
      induction parts with
      | nil => exact fun _ => rfl
      | cons part parts ih => exact ih
    exact hparts name.rest depth
  kinds_ne_nil := by simp [kinds]
  first := by
    rw [toList_text]
    have hhead := name.first.spelling.head?_append (restChars name.rest)
    change (name.first.text.toList ++ restChars name.rest).head? = _ at hhead
    rw [hhead]
    exact name.first.spelling.first
  last := by
    rw [toList_text]
    cases hrest : name.rest.getLast? with
    | none =>
      rw [getLast?_eq_none_iff.mp hrest, restChars, flatMap_nil, append_nil]
      exact name.first.spelling.last
    | some part =>
      obtain ⟨front, hfront⟩ := getLast?_eq_some_iff.mp hrest
      have hchars : name.first.text.toList ++ restChars name.rest =
          (name.first.text.toList ++ restChars front ++ ['.']) ++ part.spelling.chars := by
        rw [hfront]
        simp [restChars, Name.spelling, Spelling.word]
      rw [hchars, Spelling.getLast?_append]
      exact part.spelling.last
  oneLine hmem := by
    rw [toList_text] at hmem
    rcases mem_append.mp hmem with h | h
    · exact name.first.spelling.oneLine h
    · obtain ⟨part, -, hpart⟩ := mem_flatMap.mp h
      rcases mem_cons.mp hpart with h | h
      · exact absurd h (by decide)
      · exact part.spelling.oneLine h

end Dotted

/-- A number, given by its digits. -/
structure Numeral where
  /-- Whether a minus sign stands in front. -/
  negative : Bool
  /-- The digits of the whole part. -/
  whole : List Char
  /-- The digits of the fraction, which may be missing. -/
  fraction : List Char
  whole_ne_nil : whole ≠ []
  whole_digits : ∀ d ∈ whole, d.isDigit
  fraction_digits : ∀ d ∈ fraction, d.isDigit

namespace Numeral

/-- The number. -/
def value (n : Numeral) : Float :=
  if n.negative then -decimalValue n.whole n.fraction else decimalValue n.whole n.fraction

/-- How the number is written without its sign. -/
def magnitude (n : Numeral) : Spelling :=
  .decimal n.whole n.fraction n.whole_ne_nil n.whole_digits n.fraction_digits

/-- A digit does not go on with a minus sign. -/
theorem lexes_minus (n : Numeral) {rest : List Char} {more : List Token.Kind}
    (h : Lexes (n.magnitude.chars ++ rest) more) :
    Lexes ('-' :: (n.magnitude.chars ++ rest)) (.sign .minus :: more) := by
  obtain ⟨d, ds, hwhole⟩ := exists_cons_of_ne_nil n.whole_ne_nil
  have hhead : (n.magnitude.chars ++ rest).head? = some d := by
    change (decimalChars n.whole n.fraction ++ rest).head? = some d
    rw [hwhole]
    unfold decimalChars
    split <;> rfl
  have hdigit : d.isDigit := n.whole_digits d (by simp [hwhole])
  have hne {e : Char} (he : e.isDigit = false) : (n.magnitude.chars ++ rest).head? ≠ some e := by
    rw [hhead]
    rintro ⟨⟩
    rw [hdigit] at he
    cases he
  exact .alone rfl (hne rfl) (hne rfl) (hne rfl) h

/-- How a number is written. -/
def spelling (n : Numeral) : Spelling :=
  if n.negative then
    n.magnitude.marked '-' (.sign .minus) n.lexes_minus (fun _ => rfl) rfl (by decide)
  else n.magnitude

end Numeral

/-- A text without quotes and line breaks. -/
structure Quotable where
  /-- The text. -/
  text : String
  plain : ∀ c ∈ text.toList, c ≠ '"' ∧ c ≠ '\n'

/-- An expression that can be written down. -/
inductive Expr where
  | name (name : Dotted)
  | number (value : Numeral)
  | text (value : Quotable)
  | truth (value : Bool)
  | call (callee : Dotted) (args : List Expr)
  | cast (target : DataType) (scalar : target.isList = false) (operand : Expr)
  | list (items : List Expr)
  | not (operand : Expr)
  | binary (op : BinaryOp) (left right : Expr)
  | group (inner : Expr)

namespace Expr

/-- Whether an expression is made by an operator. -/
def isCompound : Expr → Bool
  | .not _ | .binary _ _ _ => true
  | _ => false

mutual

/-- The tree of an expression. -/
def tree : Expr → BlockScript.Expr
  | .name dotted => .ident .blank dotted.text
  | .number n => .literal .blank (.number n.value)
  | .text q => .literal .blank (.string q.text)
  | .truth b => .literal .blank (.boolean b)
  | .call callee args => .call .blank callee.text (treeAll args)
  | .cast target _ operand => .cast .blank target operand.tree
  | .list items => .list .blank (treeAll items)
  | .not operand => .not .blank operand.tree
  | .binary op left right => .binary .blank op left.tree right.tree
  | .group inner => .group .blank inner.tree

/-- The trees of several expressions. -/
def treeAll : List Expr → List BlockScript.Expr
  | [] => []
  | e :: rest => e.tree :: treeAll rest

end

/-- An operand, in parentheses if it is compound. -/
def operand (e : Expr) (s : Spelling) : Spelling :=
  if e.isCompound then s.enclosed .round else s

mutual

/-- How an expression is written. -/
def spelling : Expr → Spelling
  | .name dotted => dotted.spelling
  | .number n => n.spelling
  | .text q => .quoted q.text q.plain
  | .truth b => .truth b
  | .call callee args =>
    callee.spelling.beside (.bracketed .round (spellAll args)) (Spelling.stops_bracketed _ _)
  | .cast target _ operand =>
    (Spelling.scalar target).beside (operand.spelling.enclosed .round) (Spelling.stops_enclosed _ _)
  | .list items => .bracketed .square (spellAll items)
  | .not inner =>
    (Spelling.keyword "not" .notWord (by decide) (by decide)).spaced (inner.operand inner.spelling)
  | .binary op left right =>
    (left.operand left.spelling).spaced
      ((Spelling.operator op).spaced (right.operand right.spelling))
  | .group inner => inner.spelling.enclosed .round

/-- How several expressions are written, with commas between them. -/
def spellAll : List Expr → Option Spelling
  | [] => none
  | e :: rest =>
    match spellAll rest with
    | none => some e.spelling
    | some more => some (e.spelling.comma more)

end

end Expr

/-- The declaration of a variable, a list or a constant. -/
inductive Decl where
  | variable (name : Name) (type : Option DataType) (value : Option Expr)
  | constant (name : Name) (type : Option DataType) (value : Expr)

namespace Decl

/-- The tree of a declaration. -/
def tree : Decl → BlockScript.Stmt
  | .variable name type value => .varDecl name.text type (value.map Expr.tree) false .nowhere
  | .constant name type value => .constDecl name.text type value.tree .nowhere

/-- A word and a name, with a type if there is one. -/
def header (word : Spelling) (name : Name) : Option DataType → Spelling
  | none => word.spaced name.spelling
  | some type => word.spaced (name.spelling.heads.spaced (.type type))

/-- What is declared, with its value. -/
def valued (header : Spelling) (value : Expr) : Spelling :=
  header.spaced ((Spelling.assignment .set).spaced value.spelling)

/-- How a declaration is written. -/
def spelling : Decl → Spelling
  | .variable name type none => header (.keyword "var" .varWord (by decide) (by decide)) name type
  | .variable name type (some value) =>
    valued (header (.keyword "var" .varWord (by decide) (by decide)) name type) value
  | .constant name type value =>
    valued (header (.keyword "const" .constWord (by decide) (by decide)) name type) value

end Decl

/-- How often a loop runs. -/
inductive Loop where
  | forever
  | times (count : Expr)
  | until (condition : Expr)

/-- The tree of the header of a loop. -/
def Loop.tree : Loop → LoopKind
  | .forever => .forever
  | .times count => .times count.tree
  | .until condition => .until condition.tree

/-- How the header of a loop is written, without its colon. -/
def Loop.spelling : Loop → Spelling
  | .forever => .keyword "loop" .loopWord (by decide) (by decide)
  | .times count =>
    (Spelling.keyword "loop" .loopWord (by decide) (by decide)).spaced count.spelling
  | .until condition =>
    (Spelling.keyword "until" .untilWord (by decide) (by decide)).spaced condition.spelling

/-- A statement. A body is given by its first statement and the ones after it. -/
inductive Stmt where
  | decl (decl : Decl)
  | call (callee : Dotted) (args : List Expr)
  | assign (target : Dotted) (op : AssignOp) (value : Expr)
  | branch (condition : Expr) (first : Stmt) (more otherwise : List Stmt)
  | loop (kind : Loop) (first : Stmt) (more : List Stmt)

namespace Stmt

mutual

/-- The tree of a statement. -/
def tree : Stmt → BlockScript.Stmt
  | .decl d => d.tree
  | .call callee args => .call callee.text (Expr.treeAll args) .nowhere
  | .assign target op value => .assign target.text op value.tree .nowhere
  | .branch condition first more otherwise =>
    .branch condition.tree (first.tree :: treeAll more) (treeAll otherwise) .nowhere
  | .loop kind first more => .loop kind.tree (first.tree :: treeAll more) .nowhere

/-- The trees of several statements. -/
def treeAll : List Stmt → List BlockScript.Stmt
  | [] => []
  | stmt :: rest => stmt.tree :: treeAll rest

end

mutual

/-- The lines of a statement, the first of them indented by `depth`. -/
def lines (depth : Nat) : Stmt → List SpelledLine
  | .decl d => [⟨depth, d.spelling⟩]
  | .call callee args => [⟨depth, (Expr.call callee args).spelling⟩]
  | .assign target op value =>
    [⟨depth, target.spelling.spaced ((Spelling.assignment op).spaced value.spelling)⟩]
  | .branch condition first more otherwise =>
    ⟨depth, ((Spelling.keyword "if" .ifWord (by decide) (by decide)).spaced
      condition.spelling).heads⟩ :: (lines (depth + 1) first ++ linesAll (depth + 1) more ++
        if otherwise.isEmpty then []
        else ⟨depth, (Spelling.keyword "else" .elseWord (by decide) (by decide)).heads⟩ ::
          linesAll (depth + 1) otherwise)
  | .loop kind first more =>
    ⟨depth, kind.spelling.heads⟩ :: (lines (depth + 1) first ++ linesAll (depth + 1) more)

/-- The lines of several statements. -/
def linesAll (depth : Nat) : List Stmt → List SpelledLine
  | [] => []
  | stmt :: rest => lines depth stmt ++ linesAll depth rest

end

end Stmt

/-- An item. -/
inductive Item where
  | decl (decl : Decl)
  | handler (name : Name) (param : Option Expr) (first : Stmt) (more : List Stmt)
  | event (name : Name) (first : Stmt) (more : List Stmt)
  | function (name : Name) (params : List (Name × DataType)) (first : Stmt) (more : List Stmt)

namespace Item

/-- The tree of an item. -/
def tree : Item → BlockScript.Stmt
  | .decl d => d.tree
  | .handler name param first more =>
    .event .builtin name.text (param.map Expr.tree) (first.tree :: Stmt.treeAll more) .nowhere 0
  | .event name first more =>
    .event .custom name.text none (first.tree :: Stmt.treeAll more) .nowhere 0
  | .function name params first more =>
    .funcDecl name.text (params.map fun (name, type) => ⟨name.text, type, .nowhere⟩)
      (first.tree :: Stmt.treeAll more) .nowhere 0

/-- How parameters are written. -/
def spellParams : List (Name × DataType) → Option Spelling
  | [] => none
  | (name, type) :: rest =>
    let first := name.spelling.heads.spaced (.type type)
    match spellParams rest with
    | none => some first
    | some more => some (first.comma more)

/-- The name of an event behind its mark. -/
def marked (name : Name) : Spelling :=
  name.spelling.marked '@' (.sign .atSign) (fun h => .single rfl h) (fun _ => rfl) rfl (by decide)

/-- How the header of an item is written, without its colon. -/
def header : Item → Spelling
  | .decl d => d.spelling
  | .handler name none _ _ => marked name
  | .handler name (some param) _ _ => (marked name).spaced param.spelling
  | .event name _ _ =>
    (Spelling.keyword "event" .eventWord (by decide) (by decide)).spaced name.spelling
  | .function name params _ _ =>
    (Spelling.keyword "func" .funcWord (by decide) (by decide)).spaced
      (name.spelling.beside (.bracketed .round (spellParams params)) (Spelling.stops_bracketed _ _))

/-- The lines of an item. -/
def lines (item : Item) : List SpelledLine :=
  match item with
  | .decl d => [⟨0, d.spelling⟩]
  | .handler _ _ first more | .event _ first more | .function _ _ first more =>
    ⟨0, item.header.heads⟩ :: (first.lines 1 ++ Stmt.linesAll 1 more)

end Item

/-- The text of a program. -/
def text (items : List Item) : String := SpelledLine.text (items.flatMap Item.lines)

end Draft

end BlockScript
