import BlockScript.Proofs.ParserSteps
import BlockScript.Proofs.Retagging
import Mathlib.Data.List.Forall2

/-!
# The grammar of expressions as rules

The levels of the expression grammar and its rules, each with the tree that it makes of the trees of
its parts. The rules speak of kinds of tokens and of bare trees and say nothing of how tokens are
read. What an operator makes of its operands is part of the rules: `a <= b` stands for `a < b or a
== b`, `a != b` for `not (a == b)`, and `-e` for a literal or a product.
-/

namespace BlockScript

variable {what : Expectation}

open Cursor

/-- The levels of the grammar, the loosest first. -/
inductive Level where
  | disjunction
  | conjunction
  | equality
  | comparison
  | term
  | factor
  | unary
  | primary
  deriving DecidableEq

namespace Level

/-- How tight a level is. -/
def rank : Level → Nat
  | .disjunction => 0
  | .conjunction => 1
  | .equality => 2
  | .comparison => 3
  | .term => 4
  | .factor => 5
  | .unary => 6
  | .primary => 7

/-- The level of the operands of the binary operators of a level. -/
def operand? : Level → Option Level
  | .disjunction => some .conjunction
  | .conjunction => some .equality
  | .equality => some .comparison
  | .comparison => some .term
  | .term => some .factor
  | .factor => some .unary
  | .unary | .primary => none

/-- Operands are tighter. -/
theorem rank_of_operand? {level operand : Level} (h : level.operand? = some operand) :
    operand.rank = level.rank + 1 := by
  cases level <;> cases h <;> rfl

end Level

namespace Expr

/-- A bare operation. -/
def operation (op : BinaryOp) (left right : Expr) : Expr := .binary .blank op left right

/-- A bare negation. -/
def negation (operand : Expr) : Expr := .not .blank operand

/-- What a minus sign makes of its operand. -/
def opposite : Expr → Expr
  | .literal _ (.number n) => .literal .blank (.number (-n))
  | e => operation .mul (.literal .blank (.number (-Float.ofScientific 1 false 0))) e

end Expr

/-- The binary operators of a level, with what they make of their operands. -/
inductive Operator : Level → Token.Kind → (Expr → Expr → Expr) → Prop where
  | or : Operator .disjunction (.keyword .orWord) (.operation .or)
  | and : Operator .conjunction (.keyword .andWord) (.operation .and)
  | equal : Operator .equality (.sign .equal) (.operation .eq)
  | unequal : Operator .equality (.sign .notEqual) fun a b => .negation (.operation .eq a b)
  | less : Operator .comparison (.sign .less) (.operation .lt)
  | greater : Operator .comparison (.sign .greater) (.operation .gt)
  | atMost : Operator .comparison (.sign .lessEq) fun a b =>
      .operation .or (.operation .lt a b) (.operation .eq a b)
  | atLeast : Operator .comparison (.sign .greaterEq) fun a b =>
      .operation .or (.operation .gt a b) (.operation .eq a b)
  | plus : Operator .term (.sign .plus) (.operation .add)
  | minus : Operator .term (.sign .minus) (.operation .sub)
  | times : Operator .factor (.sign .star) (.operation .mul)
  | over : Operator .factor (.sign .slash) (.operation .div)
  | modulo : Operator .factor (.sign .percent) (.operation .mod)

/-- No token is an operator of two levels. -/
theorem Operator.level_unique {level level' : Level} {kind : Token.Kind}
    {make make' : Expr → Expr → Expr} (h : Operator level kind make)
    (h' : Operator level' kind make') : level = level' := by
  cases h <;> cases h' <;> rfl

/-- Names joined with dots. -/
inductive DottedName : List Token.Kind → String → Prop where
  | single (name : String) : DottedName [.name name] name
  | member {kinds : List Token.Kind} {name : String} (part : String) :
      DottedName kinds name → DottedName (kinds ++ [.sign .dot, .name part]) (name ++ "." ++ part)

mutual

/-- The rules of the grammar: the tokens of a phrase of a level, and its tree. -/
inductive Derives : Level → List Token.Kind → Expr → Prop where
  | operand {level operand : Level} {kinds : List Token.Kind} {e : Expr} :
      level.operand? = some operand → Derives operand kinds e → Derives level kinds e
  | binary {level operand : Level} {kind : Token.Kind} {make : Expr → Expr → Expr}
      {lefts rights : List Token.Kind} {left right : Expr} :
      level.operand? = some operand → Operator level kind make → Derives level lefts left →
      Derives operand rights right → Derives level (lefts ++ kind :: rights) (make left right)
  | not {kinds : List Token.Kind} {e : Expr} :
      Derives .unary kinds e → Derives .unary (.keyword .notWord :: kinds) (.negation e)
  | minus {kinds : List Token.Kind} {e : Expr} :
      Derives .unary kinds e → Derives .unary (.sign .minus :: kinds) e.opposite
  | plain {kinds : List Token.Kind} {e : Expr} : Derives .primary kinds e → Derives .unary kinds e
  | literal (value : Value) : Derives .primary [.literal value] (.literal .blank value)
  | name {kinds : List Token.Kind} {name : String} :
      DottedName kinds name → Derives .primary kinds (.ident .blank name)
  | emptyCall {kinds : List Token.Kind} {name : String} : DottedName kinds name →
      Derives .primary (kinds ++ [.sign .leftParen, .sign .rightParen]) (.call .blank name [])
  | call {kinds more : List Token.Kind} {name : String} {args : List Expr} :
      DottedName kinds name → Enumerates more args →
      Derives .primary (kinds ++ .sign .leftParen :: more ++ [.sign .rightParen])
        (.call .blank name args)
  | cast {word : Keyword} {target : DataType} {kinds : List Token.Kind} {e : Expr} :
      word.type? = some target → Derives .disjunction kinds e →
      Derives .primary (.keyword word :: .sign .leftParen :: kinds ++ [.sign .rightParen])
        (.cast .blank target e)
  | emptyList : Derives .primary [.sign .leftBracket, .sign .rightBracket] (.list .blank [])
  | list {kinds : List Token.Kind} {items : List Expr} : Enumerates kinds items →
      Derives .primary (.sign .leftBracket :: kinds ++ [.sign .rightBracket]) (.list .blank items)
  | listWithComma {kinds : List Token.Kind} {items : List Expr} : Enumerates kinds items →
      Derives .primary (.sign .leftBracket :: kinds ++ [.sign .comma, .sign .rightBracket])
        (.list .blank items)
  | group {kinds : List Token.Kind} {e : Expr} : Derives .disjunction kinds e →
      Derives .primary (.sign .leftParen :: kinds ++ [.sign .rightParen]) (.group .blank e)

/-- One or more expressions with commas between them. -/
inductive Enumerates : List Token.Kind → List Expr → Prop where
  | single {kinds : List Token.Kind} {e : Expr} :
      Derives .disjunction kinds e → Enumerates kinds [e]
  | more {kinds rest : List Token.Kind} {e : Expr} {es : List Expr} :
      Derives .disjunction kinds e → Enumerates rest es →
      Enumerates (kinds ++ .sign .comma :: rest) (e :: es)

end

/-- Whether a token can go on with an expression that ends before it. -/
def Token.Kind.Continues (kind : Token.Kind) : Prop :=
  kind = .sign .dot ∨ kind = .sign .leftParen ∨ ∃ level make, Operator level kind make

/-- What joining makes of bare operands. -/
def Join.make : Join → Expr → Expr → Expr
  | .plain op => .operation op
  | .orEqual op => fun a b => .operation .or (.operation op a b) (.operation .eq a b)
  | .unequal => fun a b => .negation (.operation .eq a b)

/-- The tree that a join makes. -/
theorem Join.bare_build (join : Join) (next : Nat) (left right : Expr) :
    (join.build next left right).1.bare = join.make left.bare right.bare := by
  cases join with
  | plain op => rfl
  | unequal => rfl
  | orEqual op =>
    have hcopy (e : Expr) (next : Nat) :
        (e.copy next).1.retag (fun _ => .blank) = e.retag fun _ => .blank :=
      Expr.retag_copy (fun _ _ => rfl) next e
    simp only [build, make, Expr.join, Expr.bare, Expr.retag, Expr.operation, hcopy]

/-- Whether a tier of the parser has the operators of a level. -/
structure Tier.Serves (tier : Tier) (level : Level) : Prop where
  operator : ∀ {kind join}, tier kind = some join → Operator level kind join.make
  join : ∀ {kind make}, Operator level kind make → ∃ join, tier kind = some join ∧ join.make = make

/-- The levels that have binary operators. -/
def Level.binary : List Level :=
  [.disjunction, .conjunction, .equality, .comparison, .term, .factor]

/-- The tiers of the parser are the levels of the grammar. -/
theorem tiers_serve : List.Forall₂ Tier.Serves tiers Level.binary := by
  refine .cons ?_ (.cons ?_ (.cons ?_ (.cons ?_ (.cons ?_ (.cons ?_ .nil)))))
  all_goals
    constructor
    · intro kind join h
      split at h <;> cases h <;> constructor
    · intro kind make h
      cases h <;> exact ⟨_, rfl, rfl⟩

/-- Whether the operands of every level are the phrases of the next one. -/
def Level.Descends : List Level → Prop
  | [] => True
  | level :: rest => level.operand? = some (rest.headD .unary) ∧ Descends rest

/-- Levels descend to unary ones. -/
theorem Level.descends_binary : Descends Level.binary := ⟨rfl, rfl, rfl, rfl, rfl, rfl, trivial⟩

/-- The tree of a negated operand. -/
theorem Expr.bare_negated (next : Nat) (start : Span) (e : Expr) :
    (e.negated next start).1.bare = e.bare.opposite := by
  unfold negated
  split
  · rfl
  · rename_i hliteral
    cases e with
    | literal tag value =>
      cases value with
      | number n => exact absurd rfl (hliteral tag n)
      | string s => rfl
      | boolean b => rfl
    | ident tag name => rfl
    | call tag callee args => rfl
    | cast tag target operand => rfl
    | list tag items => rfl
    | not tag operand => rfl
    | binary tag op left right => rfl
    | group tag inner => rfl

namespace Parser

/-- Whether what a parser reads is so: the kinds of the tokens that it passes, and its result. -/
def Consumes {α : Type} (p : Parser α) (c : Cursor) (post : List Token.Kind → α → Prop) : Prop :=
  Ends p c (fun a c' => ∃ ts, c.rest = ts ++ c'.rest ∧ post (ts.map (·.kind)) a) fun _ _ => True

namespace Consumes

variable {α β : Type} {p : Parser β} {f : β → Parser α} {c : Cursor} {kind : Token.Kind}
  {first : List Token.Kind → β → Prop} {post : List Token.Kind → α → Prop}

private theorem pure {a : α} (h : post [] a) : Consumes (pure a) c post := ⟨[], rfl, h⟩

private theorem mono {post' : List Token.Kind → β → Prop} (h : Consumes p c first)
    (hpost : ∀ kinds b, first kinds b → post' kinds b) : Consumes p c post' := by
  refine Ends.mono h ?_ fun _ _ h => h
  rintro b c' ⟨ts, hts, hb⟩
  exact ⟨ts, hts, hpost _ b hb⟩

private theorem bind (h : Consumes p c first)
    (hf : ∀ kinds b c', first kinds b → Consumes (f b) c' fun more => post (kinds ++ more)) :
    Consumes (p >>= f) c post := by
  refine ends_bind.mpr (Ends.mono h ?_ fun _ _ h => h)
  rintro b c' ⟨ts, hts, hb⟩
  refine Ends.mono (hf _ b c' hb) ?_ fun _ _ h => h
  rintro a c'' ⟨us, hus, ha⟩
  exact ⟨ts ++ us, by rw [hts, hus, List.append_assoc], by rwa [List.map_append]⟩

private theorem get {f : Cursor → Parser α} (h : Consumes (f c) c post) :
    Consumes (get >>= f) c post := h

private theorem sees {f : Bool → Parser α} (h : Consumes (f (c.kind? == some kind)) c post) :
    Consumes (sees kind >>= f) c post := h

private theorem building {build : Nat → Expr × Nat} {f : Expr → Parser α}
    (h : Consumes (f (build c.nextId).1) { c with nextId := (build c.nextId).2 } post) :
    Consumes (building build >>= f) c post := h

private theorem remaining {f : Nat → Parser α} (h : Consumes (f c.rest.length) c post) :
    Consumes (remaining >>= f) c post := h

private theorem fresh {span : Span} {f : Tag → α} (h : ∀ tag, post [] (f tag)) :
    Consumes (do return f (← freshTag span)) c post :=
  ⟨[], rfl, h _⟩

private theorem cons {p : Parser α} {t : Token} (hc : c.rest = t :: c.advance.rest)
    (h : Consumes p c.advance fun kinds => post (t.kind :: kinds)) :
    Ends p c.advance (fun a c' => ∃ ts, c.rest = ts ++ c'.rest ∧ post (ts.map (·.kind)) a)
    fun _ _ => True := by
  refine Ends.mono h ?_ fun _ _ h => h
  rintro a c' ⟨ts, hts, ha⟩
  exact ⟨t :: ts, by rw [hc, hts]; rfl, ha⟩

private theorem pass {f : Span → Parser α} (hkind : c.kind? = some kind)
    (h : ∀ span c', Consumes (f span) c' fun kinds => post (kind :: kinds)) :
    Consumes (pass >>= f) c post := by
  obtain ⟨t, rest, hrest, rfl⟩ := kind?_eq_some_iff.mp hkind
  exact ends_bind.mpr (cons (by rw [advance_of_rest hrest, hrest]) (h _ _))

private theorem expect {f : Span → Parser α}
    (h : ∀ span c', Consumes (f span) c' fun kinds => post (kind :: kinds)) :
    Consumes (expect kind what >>= f) c post := by
  refine ends_bind.mpr (ends_expect.mpr ?_)
  split
  · rename_i hkind
    obtain ⟨t, rest, hrest, rfl⟩ := kind?_eq_some_iff.mp hkind
    exact cons (by rw [advance_of_rest hrest, hrest]) (h _ _)
  · trivial

private theorem accept {f : Bool → Parser α}
    (hyes : ∀ c', Consumes (f true) c' fun kinds => post (kind :: kinds))
    (hno : Consumes (f false) c post) : Consumes (accept kind >>= f) c post := by
  refine ends_bind.mpr (ends_accept.mpr ?_)
  split
  · rename_i hkind
    obtain ⟨t, rest, hrest, rfl⟩ := kind?_eq_some_iff.mp hkind
    exact cons (by rw [advance_of_rest hrest, hrest]) (hyes _)
  · exact hno

private theorem expectName {f : String × Span → Parser α}
    (h : ∀ name span c', Consumes (f (name, span)) c' fun kinds => post (.name name :: kinds)) :
    Consumes (expectName what >>= f) c post := by
  rw [Consumes, Parser.expectName, bind_assoc, ends_bind, ends_get]
  split
  · rename_i name hkind
    rw [bind_assoc]
    exact pass hkind fun span c' => h name span c'
  · trivial

end Consumes

/-- Whether what a parser reads is a phrase of a level, and its result is the tree of the phrase. -/
def Reads (level : Level) (p : Parser Expr) :
    Prop := ∀ c, Consumes p c fun kinds e => Derives level kinds e.bare

variable {level operand : Level} {p expr : Parser Expr} {tier : Tier} {c : Cursor}

private theorem reads_tierRest (htier : tier.Serves level)
    (hoperand : level.operand? = some operand)
    (hp : Reads operand p) (steps : Nat) (left : Expr) (c : Cursor) :
    Consumes (tierRest tier p steps left) c fun more e =>
      ∀ kinds, Derives level kinds left.bare → Derives level (kinds ++ more) e.bare := by
  induction steps generalizing left c with
  | zero => exact .pure fun kinds h => by simpa using h
  | succ steps ih =>
    refine .get ?_
    split
    · exact .pure fun kinds h => by simpa using h
    · rename_i join hjoin
      obtain ⟨kind, hkind, hjoin⟩ := Option.bind_eq_some_iff.mp hjoin
      refine .pass hkind fun _ _ => (hp _).bind fun rights right c' hright => ?_
      refine .building ((ih _ _).mono fun more e he kinds hleft => ?_)
      have hjoined := Derives.binary hoperand (htier.operator hjoin) hleft hright
      rw [← Join.bare_build] at hjoined
      simpa using he _ hjoined

private theorem reads_tierOf (htier : tier.Serves level) (hoperand : level.operand? = some operand)
    (hp : Reads operand p) : Reads level (tierOf tier p) := by
  refine fun c => (hp c).bind fun lefts left c' hleft => ?_
  exact (reads_tierRest htier hoperand hp _ left c').mono fun more e he =>
    he _ (.operand hoperand hleft)

private theorem reads_tiers {ts : List Tier} {levels : List Level}
    (hserve : List.Forall₂ Tier.Serves ts levels) (hdescends : Level.Descends levels)
    (hp : Reads .unary p) : Reads (levels.headD .unary) (ts.foldr tierOf p) := by
  induction hserve with
  | nil => exact hp
  | cons htier _ ih => exact reads_tierOf htier hdescends.1 (ih hdescends.2)

private theorem reads_prefixed (hp : Reads .primary p) (steps : Nat) :
    Reads .unary (prefixed p steps) := by
  have hplain : Reads .unary p := fun c => (hp c).mono fun _ _ => .plain
  induction steps with
  | zero => exact hplain
  | succ steps ih =>
    refine fun c => .get ?_
    split
    · rename_i hkind
      exact .pass hkind fun _ c' => (ih c').bind fun kinds e _ he =>
        .fresh fun _ => by simpa using .not he
    · rename_i hkind
      refine .pass hkind fun _ c' => (ih c').bind fun kinds e _ he =>
        ends_building.mpr ⟨[], rfl, ?_⟩
      simpa [Expr.bare_negated] using Derives.minus he
    · exact hplain c

private theorem reads_memberNames (steps : Nat) (name : String) (span : Span) (c : Cursor) :
    Consumes (memberNames steps name span) c fun more result =>
      ∀ kinds, DottedName kinds name → DottedName (kinds ++ more) result.1 := by
  induction steps generalizing name span c with
  | zero => exact .pure fun kinds h => by simpa using h
  | succ steps ih =>
    refine .accept (fun _ => .expectName fun part _ c' => ?_)
      (.pure fun kinds h => by simpa using h)
    exact (ih _ _ c').mono fun more result h kinds hkinds => by simpa using h _ (hkinds.member part)

private theorem reads_dottedName (c : Cursor) :
    Consumes dottedName c fun kinds result => DottedName kinds result.1 :=
  .expectName fun name span c' => (reads_memberNames _ name span c').mono fun _ _ h =>
    h _ (.single name)

section

variable (hexpr : Reads .disjunction expr)

include hexpr

private theorem reads_separated (last : Option Sign) (steps : Nat) (c : Cursor) :
    Consumes (separated expr last steps) c fun kinds es => Enumerates kinds (es.map .bare) ∨
      last.isSome ∧ ∃ front, kinds = front ++ [.sign .comma] ∧ Enumerates front (es.map .bare) := by
  induction steps generalizing c with
  | zero => exact (hexpr c).bind fun kinds e _ he => .pure (.inl (by simpa using .single he))
  | succ steps ih =>
    refine (hexpr c).bind fun kinds e _ he => .accept (fun c' => ?_)
      (.pure (.inl (by simpa using .single he)))
    have hmore : Consumes (do return e :: (← separated expr last steps)) c' fun more es =>
        Enumerates (kinds ++ .sign .comma :: more) (es.map .bare) ∨ last.isSome ∧
          ∃ front, kinds ++ .sign .comma :: more = front ++ [.sign .comma] ∧
          Enumerates front (es.map .bare) := by
      refine (ih c').bind fun more es _ hes => .pure ?_
      rw [List.append_nil]
      rcases hes with hes | ⟨hlast, front, rfl, hes⟩
      · exact .inl (.more he hes)
      · exact .inr ⟨hlast, kinds ++ .sign .comma :: front, by simp, .more he hes⟩
    cases last with
    | none => exact hmore
    | some sign =>
      refine .sees ?_
      split
      · exact .pure (.inr ⟨rfl, kinds, rfl, .single he⟩)
      · exact hmore

private theorem reads_arguments (hparen : c.kind? = some (.sign .leftParen)) :
    Consumes (arguments expr) c fun more result => ∀ kinds name, DottedName kinds name →
      Derives .primary (kinds ++ more) (.call .blank name (result.1.map .bare)) := by
  refine .pass hparen fun _ c' => .sees ?_
  split
  · exact .expect fun _ _ => .pure fun kinds name hname => .emptyCall hname
  · refine .remaining ((reads_separated hexpr none _ c').bind fun more args _ hargs =>
      .expect fun _ _ => .pure ?_)
    rcases hargs with hargs | ⟨hlast, -⟩
    · exact fun kinds name hname => by simpa using Derives.call hname hargs
    · cases hlast

private theorem reads_nameOrCall : Reads .primary (nameOrCall expr) := by
  refine fun c => (reads_dottedName c).bind fun kinds result c' hname => .sees ?_
  split
  · rename_i hseen
    refine (reads_arguments hexpr (eq_of_beq hseen)).bind fun more args _ hcall =>
      .fresh fun _ => ?_
    simpa using hcall _ _ hname
  · exact .fresh fun _ => by simpa using .name hname

private theorem reads_grouped (hparen : c.kind? = some (.sign .leftParen)) :
    Consumes (grouped expr) c fun kinds e => Derives .primary kinds e.bare :=
  .pass hparen fun _ c' => (hexpr c').bind fun kinds inner _ hinner => .expect fun _ _ =>
    .fresh fun _ => by simpa using .group hinner

private theorem reads_listLiteral (hbracket : c.kind? = some (.sign .leftBracket)) :
    Consumes (listLiteral expr) c fun kinds e => Derives .primary kinds e.bare := by
  refine .pass hbracket fun _ c' => .sees ?_
  split
  · exact .expect fun _ _ => .fresh fun _ => .emptyList
  · refine .remaining ((reads_separated hexpr _ _ c').bind fun kinds items _ hitems =>
      .expect fun _ _ => .fresh fun _ => ?_)
    rcases hitems with hitems | ⟨-, front, rfl, hitems⟩
    · simpa using Derives.list hitems
    · simpa using Derives.listWithComma hitems

private theorem reads_castTo {word : Keyword} {target : DataType}
    (htype : word.type? = some target) (hword : c.kind? = some (.keyword word)) :
    Consumes (castTo expr target) c fun kinds e => Derives .primary kinds e.bare :=
  .pass hword fun _ _ => .expect fun _ c' => (hexpr c').bind fun kinds operand _ hoperand =>
    .expect fun _ _ => .fresh fun _ => by simpa using .cast htype hoperand

private theorem reads_primary : Reads .primary (primary expr) := by
  refine fun c => .get ?_
  split
  · rename_i value hkind
    exact .pass hkind fun _ _ => .fresh fun _ => .literal value
  · exact reads_nameOrCall hexpr c
  · rename_i hkind
    exact reads_grouped hexpr hkind
  · rename_i hkind
    exact reads_listLiteral hexpr hkind
  · rename_i word hkind
    split
    · rename_i target htype
      exact reads_castTo hexpr htype hkind
    · trivial
  · trivial

end

private theorem reads_expressionAt (depth : Nat) : Reads .disjunction (expressionAt depth) := by
  induction depth with
  | zero => exact fun _ => trivial
  | succ depth ih =>
    refine reads_tiers tiers_serve Level.descends_binary fun c => .remaining ?_
    exact reads_prefixed (reads_primary ih) _ c

/-- What is read as an expression is an expression of the grammar. -/
theorem reads_expression : Reads .disjunction expression := fun c => reads_expressionAt _ c

end Parser

end BlockScript
