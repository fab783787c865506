import BlockScript.Proofs.ParserSteps
import BlockScript.Proofs.Parts

/-!
# Places and numbers of what is parsed

A parser passes tokens one by one, and whatever it makes or reports stands at the place of a token
or between two of them. So a property of the places of all tokens that joining two places keeps is
one of the places of all expressions, statements and errors. It numbers the nodes of expressions
with the free numbers of its cursor, so that they have different numbers, also where a faulty line
is passed.
-/

namespace BlockScript

variable {left right : Expr}

open List

section Stays

variable {ε σ α β : Type} {inv : σ → Prop} {fault : ε → Prop} {P : α → Prop} {Q : β → Prop}

/-- Whether a computation keeps an invariant of the state, makes results with a property only and
fails with such faults only. -/
def Stays (inv : σ → Prop) (fault : ε → Prop) (P : α → Prop) (x : EStateM ε σ α) : Prop :=
  ∀ s, inv s → Ends x s (fun a s' => P a ∧ inv s') fun e s' => fault e ∧ inv s'

namespace Stays

/-- A result. -/
theorem pure {a : α} (h : P a) : Stays inv fault P (pure a : EStateM ε σ α) := fun _ hs => ⟨h, hs⟩

/-- One after the other. -/
theorem bind {x : EStateM ε σ α} {f : α → EStateM ε σ β} (hx : Stays inv fault P x)
    (hf : ∀ a, P a → Stays inv fault Q (f a)) : Stays inv fault Q (x >>= f) := by
  intro s hs
  rw [ends_bind]
  exact (hx s hs).mono (fun a s' h => hf a h.1 s' h.2) fun _ _ h => h

private theorem get : Stays inv fault inv (get : EStateM ε σ σ) := fun _ hs => ⟨hs, hs⟩

private theorem set {s : σ} (hs : inv s) :
    Stays inv fault (fun _ => True) (set s : EStateM ε σ PUnit) :=
  fun _ _ => ⟨trivial, hs⟩

/-- A fault. -/
theorem throw {e : ε} (h : fault e) :
    Stays inv fault P (throw e : EStateM ε σ α) := fun _ hs => ⟨h, hs⟩

end Stays

end Stays

namespace Expr

variable {P : Span → Prop}

/-- Whether all nodes of an expression stand at places with a property. -/
abbrev Placed (P : Span → Prop) (e : Expr) : Prop := e.Tagged fun tag => P tag.span

/-- Whether all nodes of several expressions stand at places with a property. -/
abbrev PlacedAll (P : Span → Prop) (es : List Expr) : Prop := TaggedAll (fun tag => P tag.span) es

/-- The place of an expression. -/
theorem Tagged.span {e : Expr} (h : e.Placed P) : P e.span := h.tag

mutual

private theorem Tagged.copy (next : Nat) : ∀ {e : Expr}, e.Placed P → (e.copy next).1.Placed P
  | .ident .., h | .literal .., h => h
  | .call .., h => ⟨h.1, placedAll_copyAll next h.2⟩
  | .cast .., h | .not .., h | .group .., h => ⟨h.1, Tagged.copy next h.2⟩
  | .list .., h => ⟨h.1, placedAll_copyAll next h.2⟩
  | .binary .., h => ⟨h.1, Tagged.copy next h.2.1, Tagged.copy _ h.2.2⟩

private theorem placedAll_copyAll (next : Nat) :
    ∀ {es : List Expr}, PlacedAll P es → PlacedAll P (copyAll next es).1
  | [], _ => trivial
  | _ :: _, h => ⟨Tagged.copy next h.1, placedAll_copyAll _ h.2⟩

end

private theorem Tagged.inverted (next : Nat) {e : Expr} (h : e.Placed P) :
    (e.inverted next).1.Placed P := by
  fun_induction Expr.inverted next e with
  | case1 => exact h.2
  | case2 tag inner _ _ _ ih => exact ih h.2
  | case3 => exact ⟨h.1, h⟩
  | case4 e => exact ⟨h.span, h⟩

end Expr

/-- Parts at places with a property, and constants with such names. -/
abbrev Parts.placed (P : Span → Prop) (N : String → Prop) (W : Prop) :
    Parts := ⟨fun tag => P tag.span, P, N, W⟩

/-- Whether a token has a property if it is a name. -/
def Token.Named (P : String → Prop) (t : Token) : Prop := ∀ name, t.kind = .name name → P name

/-- Tokens of a source, with properties of places, of names and of diagnostics: joining places keeps
theirs, and errors of syntax at such places are allowed. -/
structure Region where
  /-- The tokens. -/
  tokens : List Token
  /-- The place of the end of the input. -/
  ending : Span
  /-- The property of places. -/
  Has : Span → Prop
  /-- The property of names. -/
  Names : String → Prop
  /-- The property of diagnostics. -/
  Blames : Diagnostic → Prop
  has_merge : ∀ {a b : Span}, Has a → Has b → Has (a.merge b)
  has_span : ∀ t ∈ tokens, Has t.span
  has_ending : Has ending
  named : ∀ t ∈ tokens, t.Named Names
  blames_parse : ∀ (fault : SyntaxFault) {span : Span}, Has span → Blames (.parse fault span)

/-- The parts of a program that is read from a region. -/
abbrev Region.parts (R : Region) : Parts := .placed R.Has R.Names True

/-- Whether a cursor is in a region: before tokens at the end of it, with errors that it allows. -/
structure Cursor.In (R : Region) (c : Cursor) : Prop where
  rest : c.rest <:+ R.tokens
  ending : c.ending = R.ending
  errors : ∀ d ∈ c.errors, R.Blames d

/-- Whether a cursor is in a region and has a given number as the next free one. -/
def Cursor.At (R : Region) (n : Nat) (c : Cursor) : Prop := c.In R ∧ c.nextId = n

namespace Cursor

variable {R : Region} {c : Cursor}

private theorem In.span (h : c.In R) : R.Has c.span := by
  unfold Cursor.span
  cases hrest : c.rest with
  | nil =>
    rw [head?_nil, Option.map_none, Option.getD_none, h.ending]
    exact R.has_ending
  | cons t rest => exact R.has_span t (h.rest.subset (hrest ▸ mem_cons_self))

/-- Passing a token. -/
theorem In.advance (h : c.In R) : c.advance.In R := by
  refine ⟨?_, ?_, ?_⟩
  · rw [rest_advance]
    exact (tail_suffix _).trans h.rest
  · unfold Cursor.advance
    split <;> exact h.ending
  · rw [errors_advance]
    exact h.errors

private theorem skipLines_suffix (indent : Nat) (inLine : Bool) (lastLine : Nat)
    (tokens : List Token) : (skipLines indent inLine lastLine tokens).2 <:+ tokens := by
  fun_induction skipLines indent inLine lastLine tokens with
  | case1 => exact suffix_refl _
  | case2 _ _ t rest _ _ ih => exact ih.trans (suffix_cons _ _)
  | case3 _ _ t rest _ _ ih => exact ih.trans (suffix_cons _ _)
  | case4 => exact suffix_refl _

/-- Passing a line. -/
theorem In.recover (h : c.In R) (indent : Nat) : (c.recover indent).In R :=
  ⟨(skipLines_suffix indent true c.lastLine c.rest).trans h.rest, h.ending, h.errors⟩

/-- Adding a report. -/
theorem In.report {d : Diagnostic} (h : c.In R) (hd : R.Blames d) : (c.report d).In R := by
  refine ⟨h.rest, h.ending, fun other hother => ?_⟩
  rcases mem_append.mp hother with hother | hother
  · exact h.errors other hother
  · exact mem_singleton.mp hother ▸ hd

end Cursor

namespace Parser

variable {R : Region} {n : Nat} {α β : Type} {Q : α → Prop} {S : β → Prop}
  (kind : Token.Kind) (steps : Nat) (what : Expectation)

/-- Whether a parser stays in a region, takes no number and makes results with a property only. -/
abbrev StaysIn (R : Region) (n : Nat) (Q : α → Prop) (p : Parser α) : Prop :=
  Stays (Cursor.At R n) R.Blames Q p

private theorem stays_fail (fault : SyntaxFault) : StaysIn R n Q (fail fault : Parser α) :=
  fun _ hc => ⟨R.blames_parse fault hc.1.span, hc⟩

private theorem stays_failExpected : StaysIn R n Q (failExpected what : Parser α) :=
  fun _ hc => ⟨R.blames_parse _ hc.1.span, hc⟩

private theorem stays_pass : StaysIn R n R.Has pass :=
  fun c hc => ⟨hc.1.span, hc.1.advance, c.nextId_advance.trans hc.2⟩

private theorem stays_sees : StaysIn R n (fun _ => True) (sees kind) := fun _ hc => ⟨trivial, hc⟩

private theorem stays_remaining : StaysIn R n (fun _ => True) remaining := fun _ hc => ⟨trivial, hc⟩

private theorem stays_accept : StaysIn R n (fun _ => True) (accept kind) := by
  refine (stays_sees kind).bind fun seen _ => ?_
  split
  · exact stays_pass.bind fun _ _ => .pure trivial
  · exact .pure trivial

private theorem stays_expect : StaysIn R n R.Has (expect kind what) := by
  refine (stays_sees kind).bind fun seen _ => ?_
  split
  · exact stays_pass
  · exact stays_failExpected what

private theorem stays_expectName :
    StaysIn R n (fun result => R.Names result.1 ∧ R.Has result.2) (expectName what) := by
  refine Stays.get.bind fun c hc => ?_
  split
  · rename_i name hkind
    obtain ⟨t, ht, hname⟩ := Option.map_eq_some_iff.mp hkind
    have hnamed : R.Names name := R.named t (hc.1.rest.subset (mem_of_head? ht)) name hname
    exact stays_pass.bind fun span hspan => .pure ⟨hnamed, hspan⟩
  · exact stays_failExpected what

private theorem stays_expectLineEnd : StaysIn R n (fun _ => True) expectLineEnd := by
  refine Stays.get.bind fun c _ => ?_
  split
  · exact .pure trivial
  · refine (stays_accept .newline).bind fun accepted _ => ?_
    split
    · exact .pure trivial
    · exact stays_failExpected _

private theorem stays_memberNames (name : String) {span : Span} (h : R.Has span) :
    StaysIn R n (fun result => R.Has result.2) (memberNames steps name span) := by
  induction steps generalizing name span with
  | zero => exact .pure h
  | succ steps ih =>
    refine (stays_accept _).bind fun accepted _ => ?_
    split
    · exact (stays_expectName _).bind fun part hpart => ih _ (R.has_merge h hpart.2)
    · exact .pure h

private theorem stays_dottedName : StaysIn R n (fun result => R.Has result.2) dottedName :=
  (stays_expectName _).bind fun _ hname => stays_remaining.bind fun _ _ =>
    stays_memberNames _ _ hname.2

private theorem stays_typeName : StaysIn R n (fun _ => True) typeName := by
  refine Stays.get.bind fun c _ => ?_
  dsimp only
  split
  · exact stays_failExpected _
  · refine stays_pass.bind fun start hstart => (stays_accept _).bind fun accepted _ => ?_
    split
    · refine (stays_expect _ _).bind fun stop hstop => ?_
      split
      · exact .pure trivial
      · exact .throw (R.blames_parse _ (R.has_merge hstart hstop))
    · exact .pure trivial

private theorem stays_typeAnnotation : StaysIn R n (fun _ => True) typeAnnotation := by
  refine (stays_accept _).bind fun accepted _ => ?_
  split
  · exact stays_typeName.bind fun _ _ => .pure trivial
  · exact .pure trivial

private theorem stays_parameterList :
    StaysIn R n (fun params => ∀ param ∈ params, R.Has param.span) (parameterList steps) := by
  have hparameter : StaysIn R n (fun param => R.Has param.span) parameter :=
    (stays_expectName _).bind fun name hname => (stays_expect _ _).bind fun _ _ =>
      stays_typeName.bind fun _ _ => .pure hname.2
  induction steps with
  | zero => exact hparameter.bind fun first hfirst => .pure (by simpa using hfirst)
  | succ steps ih =>
    refine hparameter.bind fun first hfirst => (stays_accept _).bind fun accepted _ => ?_
    split
    · exact Stays.bind ih fun more hmore => .pure (forall_mem_cons.mpr ⟨hfirst, hmore⟩)
    · exact .pure (by simpa using hfirst)

/-! ### Making nodes -/

/-- Whether a parser that is given nodes with the numbers `pending` stays in a region, makes results
with a property only and numbers new nodes: the numbers of a result are different, and those of
`pending` or new. -/
def Makes (R : Region) (n : Nat) (pending : List Nat) (ids : α → List Nat) (Q : α → Prop)
    (p : Parser α) : Prop :=
  ∀ c, c.At R n → ∀ low ≤ n, Numbered low n pending →
    Ends p c (fun a c' => Q a ∧ c'.In R ∧ n ≤ c'.nextId ∧ Numbered low c'.nextId (ids a))
      fun d c' => R.Blames d ∧ c'.In R ∧ n ≤ c'.nextId

namespace Makes

variable {pending : List Nat} {found : α → List Nat} {ids : β → List Nat}
  {p : Parser α} {f : α → Parser β}

private theorem pure {b : β} (h : S b) (hids : ∀ id, (ids b).count id ≤ pending.count id) :
    Makes R n pending ids S (pure b) := by
  rintro c ⟨hc, rfl⟩ low _ hpend
  exact ⟨h, hc, Nat.le_refl _, hpend.of_count_le hids⟩

private theorem bind (hp : Makes R n pending found Q p)
    (hf : ∀ a, Q a → ∀ {n}, Makes R n (found a) ids S (f a)) :
    Makes R n pending ids S (p >>= f) := by
  intro c hc low hlow hpend
  rw [ends_bind]
  refine (hp c hc low hlow hpend).mono (fun a c' ⟨ha, hc', hle, hfound⟩ => ?_) fun _ _ h => h
  refine (hf a ha c' ⟨hc', rfl⟩ low (Nat.le_trans hlow hle) hfound).mono ?_ ?_
  · exact fun b c'' ⟨hb, hc'', hle', hids⟩ => ⟨hb, hc'', Nat.le_trans hle hle', hids⟩
  · exact fun _ c'' ⟨hd, hc'', hle'⟩ => ⟨hd, hc'', Nat.le_trans hle hle'⟩

private theorem after (hp : StaysIn R n Q p)
    (hf : ∀ a, Q a → Makes R n pending ids S (f a)) : Makes R n pending ids S (p >>= f) := by
  intro c hc low hlow hpend
  rw [ends_bind]
  refine (hp c hc).mono (fun a c' ⟨ha, hc'⟩ => hf a ha c' hc' low hlow hpend) fun d c'
    ⟨hd, hc'⟩ => ?_
  exact ⟨hd, hc'.1, Nat.le_of_eq hc'.2.symm⟩

private theorem map {f : α → β} (hp : Makes R n pending found Q p) (hf : ∀ a, Q a → S (f a))
    (hids : ∀ a, ids (f a) = found a) : Makes R n pending ids S (f <$> p) := by
  intro c hc low hlow hpend
  rw [ends_map]
  refine (hp c hc low hlow hpend).mono (fun a c' ⟨ha, h⟩ => ⟨hf a ha, ?_⟩) fun _ _ h => h
  rwa [hids]

private theorem mono {S' : β → Prop} {p : Parser β} (hp : Makes R n pending ids S p)
    (h : ∀ b, S b → S' b) : Makes R n pending ids S' p :=
  fun c hc low hlow hpend =>
    (hp c hc low hlow hpend).mono (fun b _ hb => ⟨h b hb.1, hb.2⟩) fun _ _ h => h

private theorem frame {p : Parser β} (hp : Makes R n [] ids S p) (pending : List Nat) :
    Makes R n pending (fun b => pending ++ ids b) S p := by
  intro c hc low hlow hpend
  refine (hp c hc n (Nat.le_refl _) .nil).mono (fun b c' ⟨hb, hc', hle, hids⟩ => ?_) fun _ _ h => h
  exact ⟨hb, hc', hle, hpend.append hids hlow hle⟩

private theorem failing {p : Parser β} (hp : StaysIn R n (fun _ => False) p) :
    Makes R n pending ids S p :=
  fun c hc _ _ _ => (hp c hc).mono (fun _ _ h => h.1.elim) fun _ _ h =>
    ⟨h.1, h.2.1, Nat.le_of_eq h.2.2.symm⟩

private theorem building {build : Nat → Expr × Nat} {S : Expr → Prop}
    (hbuild : ∀ next, S (build next).1) (h : ∀ {low next}, low ≤ next → Numbered low next pending →
      next ≤ (build next).2 ∧ Numbered low (build next).2 (build next).1.ids) :
    Makes R n pending Expr.ids S (building build) := by
  rintro c ⟨hc, rfl⟩ low hlow hpend
  exact ⟨hbuild _, ⟨hc.rest, hc.ending, hc.errors⟩, h hlow hpend⟩

private theorem node {build : Tag → β} {span : Span} (h : R.Has span)
    (hbuild : ∀ tag, R.Has tag.span → S (build tag))
    (hids : ∀ tag, ids (build tag) = tag.id :: pending) :
    Makes R n pending ids S (do return build (← freshTag span)) := by
  rintro c ⟨hc, rfl⟩ low hlow hpend
  refine ⟨hbuild _ h, ⟨hc.rest, hc.ending, hc.errors⟩, Nat.le_succ _, ?_⟩
  rw [hids]
  exact hpend.cons_next hlow

end Makes

/-! ### Expressions -/

/-- Whether a parser makes expressions whose nodes stand in a region. -/
abbrev MakesExpr (R : Region) (n : Nat) (pending : List Nat) (p : Parser Expr) : Prop :=
  Makes R n pending Expr.ids (Expr.Placed R.Has) p

/-- Whether a parser makes lists of such expressions. -/
abbrev MakesExprs (R : Region) (n : Nat) (pending : List Nat) (p : Parser (List Expr)) : Prop :=
  Makes R n pending Expr.idsAll (Expr.PlacedAll R.Has) p

private theorem placed_join (id : Nat) (op : BinaryOp) (hleft : left.Placed R.Has)
    (hright : right.Placed R.Has) : (Expr.join id op left right).Placed R.Has :=
  ⟨R.has_merge hleft.span hright.span, hleft, hright⟩

private theorem placed_build (join : Join) (next : Nat) (hleft : left.Placed R.Has)
    (hright : right.Placed R.Has) : (join.build next left right).1.Placed R.Has := by
  cases join with
  | plain op => exact placed_join _ _ hleft hright
  | orEqual op =>
    have hcopies :=
      placed_join (R := R) ((right.copy (left.copy next).2).2 + 1) .eq (hleft.copy next)
      (hright.copy (left.copy next).2)
    exact placed_join _ _ (placed_join _ _ hleft hright) hcopies
  | unequal =>
    have hequal := placed_join (R := R) next .eq hleft hright
    exact ⟨hequal.span, hequal⟩

private theorem placed_negated {start : Span} {operand : Expr} (next : Nat) (hstart : R.Has start)
    (h : operand.Placed R.Has) : (operand.negated next start).1.Placed R.Has := by
  unfold Expr.negated
  split
  · exact R.has_merge hstart h
  · exact placed_join _ _ hstart h

section Operands

variable {operand : Parser Expr} (hoperand : ∀ {n}, MakesExpr R n [] operand)

include hoperand

private theorem makes_tierRest (tier : Tier) (steps : Nat) (hleft : left.Placed R.Has) :
    MakesExpr R n left.ids (tierRest tier operand steps left) := by
  induction steps generalizing left n with
  | zero => exact .pure hleft fun _ => Nat.le_refl _
  | succ steps ih =>
    refine .after .get fun c _ => ?_
    split
    · exact .pure hleft fun _ => Nat.le_refl _
    · rename_i join _
      refine .after stays_pass fun _ _ => .bind (hoperand.frame left.ids) fun right hright => ?_
      refine .bind (.building (fun next => placed_build join next hleft hright) fun hlow h => ?_)
        fun joined hjoined => ih hjoined
      exact join.build_numbered hlow h

private theorem makes_prefixed (steps : Nat) : MakesExpr R n [] (prefixed operand steps) := by
  induction steps generalizing n with
  | zero => exact hoperand
  | succ steps ih =>
    refine .after .get fun c _ => ?_
    split
    · refine .after stays_pass fun start hstart => .bind ih fun inner hinner => ?_
      exact .node (R.has_merge hstart hinner.span) (fun _ htag => ⟨htag, hinner⟩) fun _ => rfl
    · refine .after stays_pass fun start hstart => .bind ih fun inner hinner => ?_
      exact .building (fun next => placed_negated next hstart hinner) fun hlow h =>
        Expr.negated_numbered hlow start h
    · exact hoperand

private theorem makes_tiers (tiers : List Tier) :
    MakesExpr R n [] (tiers.foldr tierOf operand) := by
  induction tiers generalizing n with
  | nil => exact hoperand
  | cons tier rest ih =>
    exact .bind ih fun left hleft => .after stays_remaining fun _ _ =>
      makes_tierRest ih tier _ hleft

end Operands

section Nested

variable {expr : Parser Expr} (hexpr : ∀ {n}, MakesExpr R n [] expr)

include hexpr

private theorem makes_separated (last : Option Sign) (steps : Nat) :
    MakesExprs R n [] (separated expr last steps) := by
  induction steps generalizing n with
  | zero =>
    exact .bind hexpr fun first hfirst => .pure ⟨hfirst, trivial⟩ fun id => by simp [Expr.idsAll]
  | succ steps ih =>
    refine .bind hexpr fun first hfirst => .after (stays_accept _) fun accepted _ => ?_
    have hone {n : Nat} : MakesExprs R n first.ids (pure [first]) :=
      .pure ⟨hfirst, trivial⟩ fun id => by simp [Expr.idsAll]
    have hmore {n : Nat} :
        MakesExprs R n first.ids (do return first :: (← separated expr last steps)) :=
      .bind (ih.frame first.ids) fun more hmore =>
        .pure ⟨hfirst, hmore⟩ fun id => by simp [Expr.idsAll]
    split
    · split
      · refine .after (stays_sees _) fun seen _ => ?_
        split
        · exact hone
        · exact hmore
      · exact hmore
    · exact hone

private theorem makes_arguments : Makes R n [] (fun result => Expr.idsAll result.1)
    (fun result => Expr.PlacedAll R.Has result.1 ∧ R.Has result.2) (arguments expr) := by
  refine .after stays_pass fun _ _ => .after (stays_sees _) fun seen _ => ?_
  have hlast (args : List Expr) (hargs : Expr.PlacedAll R.Has args) {n : Nat} :
      Makes R n (Expr.idsAll args) (fun result => Expr.idsAll result.1)
        (fun result => Expr.PlacedAll R.Has result.1 ∧ R.Has result.2) (do
          return (args, ← expect (.sign .rightParen) .argumentEnd)) :=
    .after (stays_expect _ _) fun stop hstop => .pure ⟨hargs, hstop⟩ fun _ => Nat.le_refl _
  dsimp only
  split
  · exact hlast [] trivial
  · exact .after stays_remaining fun _ _ => .bind (makes_separated hexpr _ _) hlast

private theorem makes_nameOrCall : MakesExpr R n [] (nameOrCall expr) := by
  refine .after stays_dottedName fun name hname => .after (stays_sees _) fun seen _ => ?_
  split
  · refine .bind (makes_arguments hexpr) fun result hres => ?_
    exact .node (R.has_merge hname hres.2) (fun _ htag => ⟨htag, hres.1⟩) fun _ => rfl
  · exact .node hname (fun _ htag => htag) fun _ => rfl

private theorem makes_grouped : MakesExpr R n [] (grouped expr) := by
  refine .after stays_pass fun start hstart => .bind hexpr fun inner hinner => ?_
  refine .after (stays_expect _ _) fun stop hstop => ?_
  exact .node (R.has_merge hstart hstop) (fun _ htag => ⟨htag, hinner⟩) fun _ => rfl

private theorem makes_listLiteral : MakesExpr R n [] (listLiteral expr) := by
  refine .after stays_pass fun start hstart => .after (stays_sees _) fun seen _ => ?_
  have hlast (items : List Expr) (hitems : Expr.PlacedAll R.Has items) {n : Nat} :
      MakesExpr R n (Expr.idsAll items) (do
        let stop ← expect (.sign .rightBracket) .listEnd
        return Expr.list (← freshTag (start.merge stop)) items) :=
    .after (stays_expect _ _) fun stop hstop =>
      .node (R.has_merge hstart hstop) (fun _ htag => ⟨htag, hitems⟩) fun _ => rfl
  dsimp only
  split
  · exact hlast [] trivial
  · exact .after stays_remaining fun _ _ => .bind (makes_separated hexpr _ _) hlast

private theorem makes_castTo (target : DataType) : MakesExpr R n [] (castTo expr target) := by
  refine .after stays_pass fun start hstart => .after (stays_expect _ _) fun _ _ => ?_
  refine .bind hexpr fun operand hoperand => .after (stays_expect _ _) fun stop hstop => ?_
  exact .node (R.has_merge hstart hstop) (fun _ htag => ⟨htag, hoperand⟩) fun _ => rfl

private theorem makes_primary : MakesExpr R n [] (primary expr) := by
  refine .after .get fun c _ => ?_
  split
  · exact .after stays_pass fun span hspan => .node hspan (fun _ htag => htag) fun _ => rfl
  · exact makes_nameOrCall hexpr
  · exact makes_grouped hexpr
  · exact makes_listLiteral hexpr
  · split
    · exact makes_castTo hexpr _
    · exact .failing (stays_failExpected _)
  · exact .failing (stays_failExpected _)

end Nested

private theorem makes_expressionAt (depth : Nat) : MakesExpr R n [] (expressionAt depth) := by
  induction depth generalizing n with
  | zero => exact .failing (stays_failExpected _)
  | succ depth ih =>
    exact makes_tiers (.after stays_remaining fun _ _ => makes_prefixed (makes_primary ih) _) tiers

/-- The nodes of an expression stand where its tokens do, and have new numbers. -/
theorem makes_expression : MakesExpr R n [] expression :=
  .after stays_remaining fun _ _ => makes_expressionAt _

private theorem makes_some_expression :
    Makes R n [] Expr.idsOf? (fun value => ∀ e ∈ value, e.Placed R.Has) (some <$> expression) :=
  .map makes_expression (fun e he => by simpa using he) fun e => by simp [Expr.idsOf?]

/-! ### Statements -/

/-- Whether a parser makes statements whose parts stand in a region. -/
abbrev MakesStmt (R : Region) (n : Nat) (pending : List Nat) (p : Parser Stmt) : Prop :=
  Makes R n pending Stmt.ids (Stmt.Of R.parts) p

/-- Whether a parser makes bodies of such statements. -/
abbrev MakesStmts (R : Region) (n : Nat) (pending : List Nat) (p : Parser (List Stmt)) : Prop :=
  Makes R n pending Stmt.idsAll (Stmt.AllOf R.parts) p

/-- Whether a parser makes items of such parts. -/
abbrev MakesItem (R : Region) (n : Nat) (pending : List Nat) (p : Parser Stmt) : Prop :=
  Makes R n pending Stmt.ids (fun item => item.isItem = true ∧ item.Of R.parts) p

private theorem has_span_getD {value : Option Expr} {span : Span}
    (hvalue : ∀ e ∈ value, e.Placed R.Has) (h : R.Has span) :
    R.Has ((value.map Expr.span).getD span) := by
  cases value with
  | none => exact h
  | some e => exact (hvalue e rfl).span

private theorem makes_variableDecl : MakesItem R n [] variableDecl := by
  refine .after stays_pass fun start hstart => .after (stays_expectName _) fun name hname => ?_
  refine .after stays_typeAnnotation fun type _ => .after (stays_accept _) fun accepted _ => ?_
  have hlast (value : Option Expr) (hvalue : ∀ e ∈ value, e.Placed R.Has) {n : Nat} :
      MakesItem R n (Expr.idsOf? value) (do
        expectLineEnd
        return .varDecl name.1 type value false
            (start.merge ((value.map Expr.span).getD name.2))) :=
    .after stays_expectLineEnd fun _ _ => .pure
      ⟨rfl, R.has_merge hstart (has_span_getD hvalue hname.2), hvalue, fun _ => rfl⟩ fun _ =>
      Nat.le_refl _
  dsimp only
  split
  · exact .bind makes_some_expression hlast
  · exact hlast none nofun

private theorem makes_constantDecl : MakesItem R n [] constantDecl := by
  refine .after stays_pass fun start hstart => .after (stays_expectName _) fun name hname => ?_
  refine .after stays_typeAnnotation fun type _ => .after (stays_expect _ _) fun _ _ => ?_
  refine .bind makes_expression fun value hvalue => .after stays_expectLineEnd fun _ _ => ?_
  exact .pure ⟨rfl, R.has_merge hstart hvalue.span, hvalue, hname.1⟩ fun _ => Nat.le_refl _

private theorem makes_callOrAssignment : MakesStmt R n [] callOrAssignment := by
  refine .after stays_dottedName fun name hname => .after .get fun c _ => ?_
  refine .after (stays_sees _) fun seen _ => ?_
  dsimp only
  split
  · refine .bind (makes_arguments makes_expression) fun result hres =>
      .after stays_expectLineEnd fun _ _ => ?_
    exact .pure ⟨R.has_merge hname hres.2, hres.1⟩ fun _ => Nat.le_refl _
  · split
    · exact .failing (stays_failExpected _)
    · refine .after stays_pass fun _ _ => .bind makes_expression fun value hvalue => ?_
      refine .after stays_expectLineEnd fun _ _ => ?_
      exact .pure ⟨R.has_merge hname hvalue.span, hvalue⟩ fun _ => Nat.le_refl _

/-- What is made of a faulty line. -/
theorem makes_recovering {ids : α → List Nat} {p : Parser α} (hp : Makes R n [] ids Q p)
    (indent : Nat) :
    Makes R n [] (fun result => result.toList.flatMap ids) (fun result => ∀ a ∈ result, Q a)
      (recovering p indent) := by
  intro c hc low hlow hpend
  have h := hp c hc low hlow hpend
  unfold Ends at h
  unfold Ends Parser.recovering
  split at h
  · rename_i a c' hx
    rw [hx]
    exact ⟨fun _ ha => Option.some.inj ha ▸ h.1, h.2.1, h.2.2.1, by simpa using h.2.2.2⟩
  · rename_i d c' hx
    rw [hx]
    exact ⟨nofun, (h.2.1.report h.1).recover indent, h.2.2, .nil⟩

private theorem allOf_toList_append {first : Option Stmt} {more : List Stmt}
    (hfirst : ∀ stmt ∈ first, stmt.Of R.parts) (hmore : Stmt.AllOf R.parts more) :
    Stmt.AllOf R.parts (first.toList ++ more) := by
  cases first with
  | none => exact hmore
  | some stmt => exact ⟨hfirst stmt rfl, hmore⟩

private theorem idsAll_toList_append (first : Option Stmt) (more : List Stmt) :
    Stmt.idsAll (first.toList ++ more) = first.toList.flatMap Stmt.ids ++ Stmt.idsAll more := by
  cases first <;> simp [Stmt.idsAll]

section Bodies

variable {stmt : Parser Stmt} (hstmt : ∀ {n}, MakesStmt R n [] stmt)

include hstmt

private theorem makes_bodyLines (header column steps : Nat) :
    MakesStmts R n [] (bodyLines stmt header column steps) := by
  induction steps generalizing n with
  | zero => exact .pure trivial fun _ => Nat.le_refl _
  | succ steps ih =>
    refine .after .get fun c hc => ?_
    split
    · exact .pure trivial fun _ => Nat.le_refl _
    · split
      · have hskipped :=
          (hc.1.report (R.blames_parse (.unevenIndentation column c.indent) hc.1.span)).recover
            column
        exact .after (.set ⟨hskipped, hc.2⟩) fun _ _ => ih
      · refine .bind (makes_recovering hstmt column) fun first hfirst => .bind (ih.frame _)
          fun more hmore => ?_
        exact .pure (allOf_toList_append hfirst hmore) fun id =>
          Nat.le_of_eq (by rw [idsAll_toList_append])

private theorem makes_body (header : Nat) : MakesStmts R n [] (body stmt header) := by
  refine .after (stays_expect _ _) fun colon hcolon => .after .get fun c _ => ?_
  split
  · exact .bind hstmt fun first hfirst => .pure ⟨hfirst, trivial⟩ fun id => by simp [Stmt.idsAll]
  · refine .after (stays_accept _) fun _ _ => .after .get fun c hc => ?_
    split
    · refine .after (.set ⟨hc.1.report (R.blames_parse .missingBody hcolon), hc.2⟩) fun _ _ => ?_
      exact .pure trivial fun _ => Nat.le_refl _
    · exact makes_bodyLines hstmt _ _ _

private theorem makes_conditional (steps : Nat) : MakesStmt R n [] (conditional stmt steps) := by
  induction steps generalizing n with
  | zero => exact .failing (stays_failExpected _)
  | succ steps ih =>
    refine .after .get fun c _ => .after stays_pass fun start hstart => ?_
    refine .bind makes_expression fun condition hcond => ?_
    refine .bind ((makes_body hstmt _).frame _) fun thenBody hthen => .after .get fun c _ => ?_
    have hlast (elseBody : List Stmt) (helse : Stmt.AllOf R.parts elseBody) {n : Nat} :
        MakesStmt R n (condition.ids ++ Stmt.idsAll thenBody ++ Stmt.idsAll elseBody)
          (pure (.branch condition thenBody elseBody (start.merge condition.span))) :=
      .pure ⟨R.has_merge hstart hcond.span, hcond, hthen, helse⟩ fun id => by simp [Stmt.ids]
    have hnested {n : Nat} :
        MakesStmts R n [] ((fun nested => [nested]) <$> conditional stmt steps) :=
      .map ih (fun nested hnested => ⟨hnested, trivial⟩) fun nested => by simp [Stmt.idsAll]
    have hnone {n : Nat} : MakesStmts R n [] (pure []) := .pure trivial fun _ => Nat.le_refl _
    dsimp only
    split
    · exact .bind (hnested.frame _) hlast
    · split
      · exact .after stays_pass fun _ _ => .bind ((makes_body hstmt _).frame _) hlast
      · exact .bind (hnone.frame _) hlast

private theorem makes_loopStatement (word : Keyword) :
    MakesStmt R n [] (loopStatement stmt word) := by
  have hlast (kind : LoopKind) (hkind : kind.Tagged R.parts.tag) (indent : Nat) {span : Span}
      (h : R.Has span)
      {n : Nat} : MakesStmt R n kind.ids (do return .loop kind (← body stmt indent) span) :=
    .bind ((makes_body hstmt _).frame _) fun lines hlines =>
      .pure ⟨h, hkind, hlines⟩ fun _ => Nat.le_refl _
  refine .after .get fun c _ => .after stays_pass fun start hstart =>
    .after (stays_sees _) fun seen _ => ?_
  split
  · exact hlast .forever trivial _ hstart
  · refine .bind makes_expression fun header hheader n => ?_
    have hspan := R.has_merge hstart hheader.span
    dsimp only
    split
    · exact hlast (.times header) hheader _ hspan
    · exact hlast (.until header) hheader _ hspan
    · have hinverted {n : Nat} : Makes R n header.ids LoopKind.ids (LoopKind.Tagged R.parts.tag)
          (LoopKind.until <$> building header.inverted) :=
        .map (.building (fun next => hheader.inverted next) fun hlow h =>
          Expr.inverted_numbered hlow h) (fun _ h => h) fun _ => rfl
      exact .bind hinverted fun kind hkind => hlast kind hkind _ hspan

end Bodies

private theorem makes_statementAt (depth : Nat) : MakesStmt R n [] (statementAt depth) := by
  induction depth generalizing n with
  | zero => exact .failing (stays_failExpected _)
  | succ depth ih =>
    refine .after .get fun c _ => ?_
    split
    · exact makes_callOrAssignment
    · split
      · exact makes_variableDecl.mono fun _ h => h.2
      · exact makes_constantDecl.mono fun _ h => h.2
      · exact .after stays_remaining fun steps _ => makes_conditional ih steps
      · exact makes_loopStatement ih _
      · exact makes_loopStatement ih _
      · exact makes_loopStatement ih _
      · exact .failing (stays_fail _)
      · exact .failing (stays_fail _)
      · exact .after .get fun c _ => .failing (stays_fail _)
      · exact .after .get fun c _ => .failing (stays_fail _)
      · exact .failing (stays_failExpected _)
    · exact .failing (stays_fail _)
    · exact .failing (stays_failExpected _)

/-- The nodes of a statement. -/
theorem makes_statement :
    MakesStmt R n [] statement := .after stays_remaining fun _ _ => makes_statementAt _

/-! ### Items -/

private theorem makes_handler : MakesItem R n [] handler := by
  refine .after .get fun c _ => .after stays_pass fun start hstart => ?_
  refine .after (stays_expectName _) fun name hname => .after (stays_sees _) fun seen _ => ?_
  have hlast (param : Option Expr) (hparam : ∀ e ∈ param, e.Placed R.Has) {n : Nat} :
      MakesItem R n (Expr.idsOf? param) (do
        let lines ← body statement c.indent
        return .event .builtin name.1 param lines (start.merge ((param.map Expr.span).getD name.2))
          (← get).lastLine) := by
    refine .bind ((makes_body makes_statement _).frame _) fun lines hlines =>
      .after .get fun c _ => ?_
    exact .pure ⟨rfl, R.has_merge hstart (has_span_getD hparam hname.2), hparam, hlines, nofun⟩
      fun _ => Nat.le_refl _
  dsimp only
  split
  · exact hlast none nofun
  · exact .bind makes_some_expression hlast

private theorem makes_eventDecl : MakesItem R n [] eventDecl := by
  refine .after .get fun c _ => .after stays_pass fun start hstart => ?_
  refine .after (stays_expectName _) fun name hname => ?_
  refine .bind (makes_body makes_statement _) fun lines hlines => .after .get fun c _ => ?_
  exact .pure ⟨rfl, R.has_merge hstart hname.2, nofun, hlines, fun _ _ => rfl⟩ fun _ =>
    Nat.le_refl _

private theorem makes_functionDecl : MakesItem R n [] functionDecl := by
  refine .after .get fun c _ => .after stays_pass fun start hstart => ?_
  refine .after (stays_expectName _) fun name _ => .after (stays_expect _ _) fun _ _ => ?_
  refine .after (stays_sees _) fun seen _ => ?_
  have hlast (params : List Parameter) (hparams : ∀ param ∈ params, R.Has param.span) :
      MakesItem R n [] (do
      let stop ← expect (.sign .rightParen) .parameterEnd
      let lines ← body statement c.indent
      return .funcDecl name.1 params lines (start.merge stop) (← get).lastLine) := by
    refine .after (stays_expect _ _) fun stop hstop =>
      .bind (makes_body makes_statement _) fun lines hlines => ?_
    exact .after .get fun c _ => .pure ⟨rfl, R.has_merge hstart hstop, hparams, hlines⟩ fun _ =>
      Nat.le_refl _
  dsimp only
  split
  · exact hlast [] nofun
  · exact .after stays_remaining fun steps _ => .after (stays_parameterList _) hlast

/-- The nodes of an item. -/
theorem makes_item : MakesItem R n [] item := by
  refine .after .get fun c _ => ?_
  split
  · exact makes_handler
  · exact makes_eventDecl
  · exact makes_variableDecl
  · exact makes_constantDecl
  · exact makes_functionDecl
  · exact .after .get fun c _ => .failing (stays_fail _)

private theorem makes_items : Makes R n [] Stmt.idsAll
    (fun items => ∀ item ∈ items, item.isItem ∧ item.Of R.parts) (items steps) := by
  induction steps generalizing n with
  | zero => exact .pure (forall_mem_nil _) fun _ => Nat.le_refl _
  | succ steps ih =>
    refine .after .get fun c hc => ?_
    split
    · exact .pure (forall_mem_nil _) fun _ => Nat.le_refl _
    · refine .after (stays_accept _) fun accepted _ => ?_
      split
      · exact ih
      · split
        · have hskipped := (hc.1.report (R.blames_parse .indentedItem hc.1.span)).recover 0
          exact .after (.set ⟨hskipped, hc.2⟩) fun _ _ => ih
        · refine .bind (makes_recovering makes_item 0) fun first hfirst =>
            .bind (ih.frame _) fun more hmore => ?_
          refine .pure (forall_mem_append.mpr ⟨fun item hitem => ?_, hmore⟩) fun id => ?_
          · exact hfirst item (Option.mem_toList.mp hitem)
          · exact Nat.le_of_eq (by rw [idsAll_toList_append])

end Parser

/-- The places and the names of tokens, and errors of syntax at such places. -/
def Region.ofTokens {P : Span → Prop} {N : String → Prop}
    (hmerge : ∀ {a b : Span}, P a → P b → P (a.merge b)) {tokens : List Token}
    (h : ∀ t ∈ tokens, P t.span ∧ t.Named N) {ending : Span} (hend : P ending) : Region where
  tokens := tokens
  ending := ending
  Has := P
  Names := N
  Blames d := ∃ fault span, d = .parse fault span ∧ P span
  has_merge := hmerge
  has_span t ht := (h t ht).1
  has_ending := hend
  named t ht := (h t ht).2
  blames_parse fault span hspan := ⟨fault, span, rfl, hspan⟩

/-- A parsed program consists of items. It and what is wrong with it stand where the tokens do, its
constants have the names of tokens, and it is as it is written. -/
theorem parse_of {P : Span → Prop} {N : String → Prop}
    (hmerge : ∀ {a b : Span}, P a → P b → P (a.merge b)) {tokens : List Token}
    (h : ∀ t ∈ tokens, P t.span ∧ t.Named N) (hend : P (Cursor.ofTokens tokens).ending) :
    (∀ item ∈ (parse tokens).program.statements, item.isItem ∧ item.Of (.placed P N True)) ∧
      (∀ d ∈ (parse tokens).errors, ∃ fault span, d = .parse fault span ∧ P span) ∧
      Numbered 0 (parse tokens).program.nextId (Stmt.idsAll (parse tokens).program.statements) := by
  have hrest : ∀ t ∈ (Cursor.ofTokens tokens).rest, P t.span ∧ t.Named N :=
    fun t ht => h t (takeWhile_subset _ ht)
  have hcursor : (Cursor.ofTokens tokens).In (.ofTokens hmerge hrest hend) :=
    ⟨suffix_refl _, rfl, fun d hd => absurd hd not_mem_nil⟩
  have hitems :=
    Parser.makes_items (Cursor.ofTokens tokens).rest.length _ ⟨hcursor, rfl⟩ 0 (Nat.zero_le _) .nil
  unfold parse
  dsimp only
  cases hparse : Parser.items (Cursor.ofTokens tokens).rest.length (.ofTokens tokens) with
  | ok statements c =>
    obtain ⟨hstmts, hc, -, hnumbered⟩ := hitems.of_ok hparse
    exact ⟨hstmts, hc.errors, hnumbered⟩
  | error d c =>
    obtain ⟨hd, hc, -⟩ := hitems.of_error hparse
    refine ⟨forall_mem_nil _, ?_, .nil⟩
    exact forall_mem_append.mpr ⟨hc.errors, forall_mem_singleton.mpr hd⟩

variable (tokens : List Token)

/-- The nodes of a parsed program have different numbers, and the next free number is above them. -/
theorem parse_numbered :
    Numbered 0 (parse tokens).program.nextId (Stmt.idsAll (parse tokens).program.statements) :=
  (parse_of (P := fun _ => True) (N := fun _ => True) (fun _ _ => trivial)
    (fun _ _ => ⟨trivial, fun _ _ => trivial⟩) trivial).2.2

/-- A parsed program consists of items, and no variable is hoisted. -/
theorem parse_written : ∀ item ∈ (parse tokens).program.statements, item.isItem ∧ item.written := by
  intro item hitem
  have hof := (parse_of (P := fun _ => True) (N := fun _ => True) (fun _ _ => trivial)
    (fun _ _ => ⟨trivial, fun _ _ => trivial⟩) trivial).1 item hitem
  exact ⟨hof.1, hof.2.isWritten trivial⟩

end BlockScript
