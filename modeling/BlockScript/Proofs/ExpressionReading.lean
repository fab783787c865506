import BlockScript.Proofs.ExpressionGrammar

/-!
# Expressions of the grammar are read

Every expression of the grammar is read by the parser of expressions as a whole, if nothing goes on
with it. A phrase ends where a token comes that neither its own level nor a tighter one goes on
with. The parser joins operands and parts of names from the left, and so do the rules; brackets
contain shorter phrases, which bounds the depth of nesting.
-/

namespace BlockScript

open List Cursor

variable {kinds tail later : List Token.Kind} {next : Option Token.Kind} {name : String}
  {tree e : Expr} {c : Cursor} {last : Option Sign} {args es : List Expr}

/-- Whether what comes next cannot go on with a phrase of a level. -/
def Level.Closes (level : Level) (next : Option Token.Kind) : Prop :=
  ∀ kind ∈ next, kind ≠ .sign .dot ∧ kind ≠ .sign .leftParen ∧
    ∀ other make, level.rank ≤ other.rank → ¬Operator other kind make

namespace Level.Closes

variable {level other : Level} {kind : Token.Kind}

private theorem mono (h : level.Closes next) (hle : level.rank ≤ other.rank) : other.Closes next :=
  fun k hk => ⟨(h k hk).1, (h k hk).2.1, fun _ _ hother =>
    (h k hk).2.2 _ _ (Nat.le_trans hle hother)⟩

/-- Closers close all levels. -/
theorem of_not_continues (h : ∀ kind ∈ next, ¬kind.Continues) : level.Closes next :=
  fun k hk => ⟨fun hdot => h k hk (.inl hdot), fun hparen => h k hk (.inr (.inl hparen)),
    fun other make _ hop => h k hk (.inr (.inr ⟨other, make, hop⟩))⟩

private theorem of_operator {make : Expr → Expr → Expr} (hop : Operator level kind make)
    (hlt : level.rank < other.rank) : other.Closes (some kind) := by
  rintro _ ⟨⟩
  refine ⟨fun h => ?_, fun h => ?_, fun level' make' hle hop' => ?_⟩
  · rw [h] at hop
    cases hop
  · rw [h] at hop
    cases hop
  · rw [hop.level_unique hop'] at hlt
    omega

end Level.Closes

/-- Whether a token can begin an expression. -/
def Token.Kind.Begins : Token.Kind → Prop
  | .literal _ | .name _ | .sign .leftParen | .sign .leftBracket | .sign .minus => True
  | .keyword word => word = .notWord ∨ word.type?.isSome
  | _ => False

private theorem DottedName.begins (h : DottedName kinds name) :
    ∃ first rest, kinds = .name first :: rest := by
  induction h with
  | single name => exact ⟨name, [], rfl⟩
  | member part _ ih =>
    obtain ⟨first, rest, rfl⟩ := ih
    exact ⟨first, rest ++ _, rfl⟩

/-- The first token of a phrase can begin an expression. -/
theorem Derives.begins {level : Level}
    (h : Derives level kinds e) : ∃ first rest, kinds = first :: rest ∧ first.Begins := by
  induction h using @Derives.rec _ fun _ _ _ => True with
  | operand _ _ ih => exact ih
  | plain _ ih => exact ih
  | binary _ _ _ _ ih _ =>
    obtain ⟨first, rest, rfl, hfirst⟩ := ih
    exact ⟨first, _, rfl, hfirst⟩
  | not => exact ⟨_, _, rfl, .inl rfl⟩
  | minus | literal | emptyList | list | listWithComma | group => exact ⟨_, _, rfl, trivial⟩
  | name hname | emptyCall hname | call hname =>
    obtain ⟨first, rest, rfl⟩ := hname.begins
    exact ⟨_, _, rfl, trivial⟩
  | cast htype => exact ⟨_, _, rfl, .inr (Option.isSome_of_eq_some htype)⟩
  | single => trivial
  | more => trivial

private theorem Enumerates.begins (h : Enumerates kinds es) :
    ∃ first rest, kinds = first :: rest ∧ first.Begins := by
  cases h with
  | single h => exact h.begins
  | more h _ =>
    obtain ⟨first, rest, rfl, hbeg⟩ := h.begins
    exact ⟨first, _, rfl, hbeg⟩

private theorem Derives.not_prefix (h : Derives .primary kinds e) :
    kinds.head? ≠ some (.keyword .notWord) ∧ kinds.head? ≠ some (.sign .minus) := by
  cases h with
  | operand h => cases h
  | binary h => cases h
  | name hname | emptyCall hname | call hname =>
    obtain ⟨first, rest, rfl⟩ := hname.begins
    simp
  | cast htype =>
    refine ⟨fun h => ?_, by simp⟩
    cases h
    cases htype
  | _ => simp

namespace Parser

variable {level operand : Level} {p expr : Parser Expr} {tier : Tier} {n steps : Nat} {sign : Sign}

/-- Whether a parser takes all phrases of a level that have at most `n` tokens, up to where they
end. -/
def Takes (n : Nat) (level : Level) (p : Parser Expr) : Prop :=
  ∀ {kinds tree}, Derives level kinds tree → kinds.length ≤ n →
    ∀ {next}, level.Closes next → Passes p kinds next (·.bare = tree)

private theorem Passes.building {f : Expr → Parser α}
    (h : ∀ n, Passes (f (build n).1) seen next post) :
    Passes (building build >>= f) seen next post :=
  fun rest c hc => h c.nextId rest { c with nextId := (build c.nextId).2 } hc

private theorem passes_tierOf (htier : tier.Serves level) (hoperand : level.operand? = some operand)
    (hp : Takes n operand p) (hder : Derives level kinds tree) (hlen : kinds.length ≤ n)
    (hclose : operand.Closes (later.head?.or next))
    {post : Expr → Prop} (hlater : ∀ steps left, later.length ≤ steps → left.bare = tree →
      Passes (tierRest tier p steps left) later next post) : Passes (tierOf tier p)
      (kinds ++ later) next post := by
  induction hsize : kinds.length using Nat.strongRecOn generalizing kinds tree later with
  | _ size ih =>
    subst hsize
    cases hder with
    | operand hop hder =>
      cases hop.symm.trans hoperand
      refine (hp hder hlen hclose).bind fun left hleft => .remaining fun steps hsteps => ?_
      exact hlater steps left hsteps hleft
    | binary hop hkind hlefts hrights =>
      cases hop.symm.trans hoperand
      obtain ⟨join, hjoin, rfl⟩ := htier.join hkind
      have hrank := Level.rank_of_operand? hoperand
      rw [length_append, length_cons] at hlen ih
      rw [append_assoc]
      refine ih _ (by omega) hlefts (by omega) (.of_operator hkind (by omega))
        (fun steps left hsteps hleft => ?_) rfl
      obtain _ | steps := steps
      · cases hsteps
      refine .get fun c rest hc => ?_
      have hjoin : c.kind?.bind tier = some join := by
        rw [hc.kind?]
        exact hjoin
      simp only [hjoin]
      refine .pass fun _ => (hp hrights (by omega) hclose).bind fun right hright =>
        .building fun _ => ?_
      refine hlater steps _ ?_ (by rw [Join.bare_build, hleft, hright])
      simp at hsteps
      omega
    | _ => cases hoperand

private theorem passes_tierRest (htier : tier.Serves level) (hclose : level.Closes next)
    (steps : Nat) (left : Expr) : Passes (tierRest tier p steps left) [] next (· = left) := by
  cases steps with
  | zero => exact .pure rfl
  | succ steps =>
    refine .get fun c rest hc => ?_
    have hnone : c.kind?.bind tier = none := by
      rw [Option.bind_eq_none_iff]
      intro kind hkind
      have hnext : next.map id = some kind := hc.kind?.symm.trans hkind
      rw [Option.map_id] at hnext
      by_contra hjoin
      obtain ⟨join, hjoin⟩ := Option.ne_none_iff_exists'.mp hjoin
      exact (hclose kind hnext).2.2 level _ (Nat.le_refl _) (htier.operator hjoin)
    simp only [hnone]
    exact .pure rfl

private theorem takes_tierOf (htier : tier.Serves level) (hoperand : level.operand? = some operand)
    (hp : Takes n operand p) : Takes n level (tierOf tier p) := by
  intro kinds tree hder hlen next hclose
  have hrank := Level.rank_of_operand? hoperand
  rw [← append_nil kinds]
  refine passes_tierOf htier hoperand hp hder hlen (hclose.mono (by omega))
    fun steps left _ hleft => ?_
  refine (passes_tierRest htier hclose steps left).mono ?_
  rintro _ rfl
  exact hleft

private theorem takes_tiers {ts : List Tier} {levels : List Level}
    (hserve : List.Forall₂ Tier.Serves ts levels) (hdescends : Level.Descends levels)
    (hp : Takes n .unary p) : Takes n (levels.headD .unary) (ts.foldr tierOf p) := by
  induction hserve with
  | nil => exact hp
  | cons htier _ ih => exact takes_tierOf htier hdescends.1 (ih hdescends.2)

private theorem takes_prefixed (hp : Takes n .primary p) (hder : Derives .unary kinds tree)
    (hlen : kinds.length ≤ n) (hsteps : kinds.length ≤ steps) (hclose : Level.unary.Closes next) :
    Passes (prefixed p steps) kinds next (·.bare = tree) := by
  induction steps generalizing kinds tree with
  | zero =>
    obtain ⟨first, more, rfl, -⟩ := hder.begins
    cases hsteps
  | succ steps ih =>
    refine .get fun c rest hc => ?_
    cases hder with
    | operand h => cases h
    | binary h => cases h
    | not hder =>
      rw [length_cons] at hlen hsteps
      rw [show c.kind? = some (.keyword .notWord) from hc.kind?]
      refine .pass fun _ => (ih hder (by omega) (by omega)).bind_nil fun inner hinner =>
        .fresh fun _ => .pure ?_
      rw [← hinner]
      rfl
    | minus hder =>
      rw [length_cons] at hlen hsteps
      rw [show c.kind? = some (.sign .minus) from hc.kind?]
      refine .pass fun _ => (ih hder (by omega) (by omega)).bind_nil fun inner hinner => ?_
      rw [← bind_pure (building _)]
      exact .building fun _ => .pure (hinner ▸ Expr.bare_negated _ _ inner)
    | plain hder =>
      obtain ⟨first, more, rfl, -⟩ := hder.begins
      have hkind? : c.kind? = some first := hc.kind?
      have hprefix := hder.not_prefix
      split
      · exact absurd (hkind?.symm.trans ‹_›) hprefix.1
      · exact absurd (hkind?.symm.trans ‹_›) hprefix.2
      · exact hp hder hlen (hclose.mono (by decide))

private theorem passes_dottedName (hname : DottedName kinds name) {post : String × Span → Prop}
    (hlater : ∀ steps span, later.length ≤ steps →
    Passes (memberNames steps name span) later next post) :
    Passes dottedName (kinds ++ later) next post := by
  induction hname generalizing later with
  | single name =>
    exact .expectName rfl fun span => .remaining fun steps hsteps => hlater steps span hsteps
  | member part _ ih =>
    rw [append_assoc]
    refine ih fun steps span hsteps => ?_
    obtain _ | steps := steps
    · cases hsteps
    refine .accept rfl (.expectName rfl fun _ => hlater steps _ ?_)
    simp at hsteps
    omega

/-- A dotted name is taken. -/
theorem takes_dottedName (hname : DottedName kinds name)
    (hclose : ∀ kind ∈ next, kind ≠ .sign .dot) : Passes dottedName kinds next (·.1 = name) := by
  rw [← append_nil kinds]
  refine passes_dottedName hname fun steps span _ => ?_
  cases steps with
  | zero => exact .pure rfl
  | succ steps => exact .accept_of_ne hclose (.pure rfl)

/-- No expression goes on with one of these signs. -/
theorem not_continues_sign (h : sign ∈ [Sign.comma, .colon, .rightParen, .rightBracket]) :
    ∀ kind ∈ some (Token.Kind.sign sign), ¬kind.Continues := by
  rintro _ ⟨⟩ (heq | heq | ⟨_, _, hop⟩)
  · cases heq
    simp at h
  · cases heq
    simp at h
  · cases hop <;> simp at h

/-- How expressions between commas end: by what is no comma, or by a comma before the sign that may
follow a last comma. -/
def Finishes (last : Option Sign) (tail : List Token.Kind) (next : Option Token.Kind) : Prop :=
  (tail = [] ∧ ∀ kind ∈ next, ¬kind.Continues ∧ kind ≠ .sign .comma) ∨
    tail = [.sign .comma] ∧ ∃ sign, last = some sign ∧ next = some (.sign sign)

private theorem Finishes.closes (h : Finishes last tail next) (level : Level) :
    level.Closes (tail.head?.or next) := by
  rcases h with ⟨rfl, h⟩ | ⟨rfl, -⟩
  · exact .of_not_continues fun kind hkind => (h kind hkind).1
  · exact .of_not_continues (not_continues_sign (by simp))

private theorem passes_last (hend : Finishes last tail next) (expr : Parser Expr) (steps : Nat)
    (first : Expr) : Passes (do
      if ← accept (.sign .comma) then
        match last with
        | some sign => if ← sees (.sign sign) then return [first]
        | none => pure ()
        return first :: (← separated expr last steps)
      else return [first]) tail next (· = [first]) := by
  rcases hend with ⟨rfl, hnext⟩ | ⟨rfl, sign, rfl, rfl⟩
  · exact .accept_of_ne (fun kind hkind => (hnext kind hkind).2) (.pure rfl)
  · exact .accept rfl (.sees rfl (.pure rfl))

private theorem takes_separated (hexpr : Takes n .disjunction expr)
    (hlast : ∀ sign ∈ last, ¬(Token.Kind.sign sign).Begins) (hes : Enumerates kinds es)
    (hlen : kinds.length ≤ n) (hsteps : kinds.length ≤ steps) (hend : Finishes last tail next) :
    Passes (separated expr last steps) (kinds ++ tail) next (·.map .bare = es) := by
  induction hes using @Enumerates.rec (fun _ _ _ _ => True) _ generalizing steps with
  | single hder =>
    obtain _ | steps := steps
    · obtain ⟨first, more, rfl, -⟩ := hder.begins
      cases hsteps
    refine (hexpr hder hlen (hend.closes _)).bind fun e he =>
      (passes_last hend expr steps e).mono ?_
    rintro found rfl
    rw [← he]
    rfl
  | @more kinds rest tree es hder hmore _ ih =>
    rw [length_append, length_cons] at hlen hsteps
    obtain _ | steps := steps
    · omega
    rw [append_assoc]
    refine (hexpr hder (by omega) (.of_not_continues (not_continues_sign (by simp)))).bind
      fun e he => ?_
    have hmore' : Passes (do return e :: (← separated expr last steps)) (rest ++ tail) next
        (·.map .bare = tree :: es) := by
      refine (ih (by omega) (by omega)).bind_nil fun found hfound => .pure ?_
      rw [map_cons, he, hfound]
    refine .accept rfl ?_
    cases last with
    | none => exact hmore'
    | some sign =>
      obtain ⟨first, _, rfl, hbeg⟩ := hmore.begins
      refine .sees_of_ne ?_ hmore'
      rintro _ ⟨⟩ rfl
      exact hlast sign rfl hbeg
  | _ => trivial

private theorem head_ne_sign (henum : Enumerates kinds es)
    (hsign : ¬(Token.Kind.sign sign).Begins) :
    ∀ kind ∈ (kinds ++ later).head?.or next, kind ≠ .sign sign := by
  obtain ⟨first, more, rfl, hbeg⟩ := henum.begins
  rintro _ ⟨⟩ rfl
  exact hsign hbeg

private theorem Finishes.of_sign (h : sign ∈ [Sign.colon, .rightParen, .rightBracket]) :
    Finishes last [] (some (.sign sign)) := by
  refine .inl ⟨rfl, fun kind hkind => ⟨not_continues_sign (mem_cons_of_mem _ h) kind hkind, ?_⟩⟩
  rintro rfl
  cases hkind
  simp at h

/-- Arguments are taken. -/
theorem takes_arguments (hexpr : Takes n .disjunction expr)
    (hargs : args = [] ∧ kinds = [] ∨ Enumerates kinds args) (hlen : kinds.length ≤ n) :
    Passes (arguments expr) (.sign .leftParen :: (kinds ++ [.sign .rightParen])) next
    (·.1.map .bare = args) := by
  refine .pass fun _ => ?_
  rcases hargs with ⟨rfl, rfl⟩ | henum
  · exact .sees rfl (.expect rfl fun _ => .pure rfl)
  · refine .sees_of_ne (head_ne_sign henum not_false) (.remaining fun steps hsteps => ?_)
    have hlast : ∀ sign ∈ (none : Option Sign), ¬(Token.Kind.sign sign).Begins := nofun
    have hend : Finishes none [] (some (.sign .rightParen)) := .of_sign (by simp)
    have hargs := takes_separated hexpr hlast henum hlen (Nat.le_trans (by simp) hsteps) hend
    rw [append_nil] at hargs
    exact hargs.bind fun found hfound => .expect rfl fun _ => .pure hfound

private theorem takes_name (hname : DottedName kinds name) (hclose : Level.primary.Closes next) :
    Passes (nameOrCall expr) kinds next (·.bare = .ident .blank name) := by
  refine (takes_dottedName hname fun kind hkind => (hclose kind hkind).1).bind_nil ?_
  rintro ⟨_, span⟩ rfl
  exact .sees_of_ne (fun kind hkind => (hclose kind hkind).2.1) (.fresh fun _ => .pure rfl)

private theorem takes_call (hexpr : Takes n .disjunction expr) (hname : DottedName kinds name)
    {more : List Token.Kind} (hargs : args = [] ∧ more = [] ∨ Enumerates more args)
    (hlen : more.length ≤ n) :
    Passes (nameOrCall expr) (kinds ++ .sign .leftParen :: (more ++ [.sign .rightParen])) next
      (·.bare = .call .blank name args) := by
  refine (takes_dottedName hname ?_).bind ?_
  · rintro _ ⟨⟩
    decide
  rintro ⟨_, span⟩ rfl
  refine .sees rfl ((takes_arguments hexpr hargs hlen).bind_nil ?_)
  rintro ⟨found, _⟩ rfl
  exact .fresh fun _ => .pure (by simp)

private theorem takes_grouped (hexpr : Takes n .disjunction expr)
    (hder : Derives .disjunction kinds tree) (hlen : kinds.length ≤ n) :
    Passes (grouped expr) (.sign .leftParen :: (kinds ++ [.sign .rightParen])) next
    (·.bare = .group .blank tree) := by
  refine .pass fun _ => (hexpr hder hlen (.of_not_continues (not_continues_sign (by simp)))).bind ?_
  rintro inner rfl
  exact .expect rfl fun _ => .fresh fun _ => .pure rfl

private theorem takes_castTo (hexpr : Takes n .disjunction expr) (target : DataType)
    (hder : Derives .disjunction kinds tree) (hlen : kinds.length ≤ n) (word : Token.Kind) :
    Passes (castTo expr target) (word :: .sign .leftParen :: (kinds ++ [.sign .rightParen])) next
      (·.bare = .cast .blank target tree) := by
  refine .pass fun _ => .expect rfl fun _ => ?_
  refine (hexpr hder hlen (.of_not_continues (not_continues_sign (by simp)))).bind ?_
  rintro operand rfl
  exact .expect rfl fun _ => .fresh fun _ => .pure rfl

private theorem takes_listLiteral (tail : List Token.Kind) (hexpr : Takes n .disjunction expr)
    {items : List Expr} (henum : Enumerates kinds items) (hlen : kinds.length ≤ n)
    (hend : Finishes (some .rightBracket) tail (some (.sign .rightBracket))) :
    Passes (listLiteral expr)
    (.sign .leftBracket :: (kinds ++ (tail ++ [.sign .rightBracket]))) next
      (·.bare = .list .blank items) := by
  refine .pass fun _ => .sees_of_ne (head_ne_sign henum not_false)
    (.remaining fun steps hsteps => ?_)
  have hlast : ∀ sign ∈ some Sign.rightBracket, ¬(Token.Kind.sign sign).Begins := by
    rintro sign ⟨⟩ h
    exact h
  rw [← append_assoc]
  refine (takes_separated hexpr hlast henum hlen (Nat.le_trans (by simp) hsteps) hend).bind ?_
  rintro found rfl
  exact .expect rfl fun _ => .fresh fun _ => .pure (by simp)

private theorem takes_primary (hexpr : Takes n .disjunction expr) :
    Takes (n + 1) .primary (primary expr) := by
  intro kinds tree hder hlen next hclose
  refine .get fun c rest hc => ?_
  cases hder with
  | operand h => cases h
  | binary h => cases h
  | literal value =>
    rw [show c.kind? = some (.literal value) from hc.kind?]
    exact .pass fun _ => .fresh fun _ => .pure rfl
  | name hname =>
    have htakes : Passes (nameOrCall expr) _ _ _ := takes_name hname hclose
    obtain ⟨first, more, rfl⟩ := hname.begins
    rw [show c.kind? = some (.name first) from hc.kind?]
    exact htakes
  | emptyCall hname =>
    have htakes : Passes (nameOrCall expr) _ next _ :=
      takes_call hexpr hname (.inl ⟨rfl, rfl⟩) (Nat.zero_le _)
    obtain ⟨first, more, rfl⟩ := hname.begins
    rw [show c.kind? = some (.name first) from hc.kind?]
    exact htakes
  | call hname henum =>
    simp only [append_assoc, cons_append, length_append, length_cons] at hlen ⊢
    have htakes : Passes (nameOrCall expr) _ next _ :=
      takes_call hexpr hname (.inr henum) (by omega)
    obtain ⟨first, more, rfl⟩ := hname.begins
    rw [show c.kind? = some (.name first) from hc.kind?]
    exact htakes
  | @cast word target _ _ htype hder =>
    simp only [cons_append, length_append, length_cons] at hlen ⊢
    rw [show c.kind? = some (.keyword word) from hc.kind?]
    simp only [htype]
    exact takes_castTo hexpr _ hder (by omega) _
  | emptyList =>
    rw [show c.kind? = some (.sign .leftBracket) from hc.kind?]
    exact .pass fun _ => .sees rfl (.expect rfl fun _ => .fresh fun _ => .pure rfl)
  | list henum =>
    simp only [cons_append, length_append, length_cons] at hlen ⊢
    rw [show c.kind? = some (.sign .leftBracket) from hc.kind?]
    exact takes_listLiteral [] hexpr henum (by omega) (.of_sign (by simp))
  | listWithComma henum =>
    simp only [cons_append, length_append, length_cons] at hlen ⊢
    rw [show c.kind? = some (.sign .leftBracket) from hc.kind?]
    exact takes_listLiteral [.sign .comma] hexpr henum (by omega) (.inr ⟨rfl, _, rfl, rfl⟩)
  | group hder =>
    simp only [cons_append, length_append, length_cons] at hlen ⊢
    rw [show c.kind? = some (.sign .leftParen) from hc.kind?]
    exact takes_grouped hexpr hder (by omega)

private theorem takes_expressionAt (depth : Nat) :
    Takes depth .disjunction (expressionAt depth) := by
  induction depth with
  | zero =>
    intro kinds tree hder hlen
    obtain ⟨first, more, rfl, -⟩ := hder.begins
    cases hlen
  | succ depth ih =>
    refine takes_tiers tiers_serve Level.descends_binary ?_
    intro kinds tree hder hlen next hclose
    exact .remaining fun steps hsteps => takes_prefixed (takes_primary ih) hder hlen hsteps hclose

/-- Every expression of the grammar is taken, up to where nothing goes on with it. -/
theorem takes_expression (n : Nat) : Takes n .disjunction expression := by
  intro kinds tree hder _ next hclose
  exact .remaining fun steps hsteps => takes_expressionAt steps hder hsteps hclose

/-- An expression of the grammar that nothing goes on with is read as a whole. -/
theorem exists_run_expression {ts rest : List Token} (hc : c.rest = ts ++ rest)
    (hder : Derives .disjunction (ts.map (·.kind)) tree)
    (hrest : ∀ t ∈ rest.head?, ¬t.kind.Continues) :
    ∃ e c', expression c = .ok e c' ∧ c'.rest = rest ∧ e.bare = tree := by
  have hclose : ∀ kind ∈ rest.head?.map (·.kind), ¬kind.Continues := by
    intro kind hkind
    obtain ⟨t, ht, rfl⟩ := Option.map_eq_some_iff.mp hkind
    exact hrest t ht
  obtain ⟨e, c', hrun, hbare, hrest', -⟩ :=
    (takes_expression _ hder (Nat.le_refl _) (.of_not_continues hclose) rest c
    ⟨ts, hc, rfl, rfl⟩).exists_ok
  exact ⟨e, c', hrun, hrest', hbare⟩

/-- The parser of expressions accepts the grammar and nothing else. Whatever it reads is an
expression of the grammar, and its result is the tree of that expression. An expression of the
grammar that nothing goes on with is read as a whole. -/
theorem expression_accepts_grammar (c : Cursor) :
    (∀ e c', expression c = .ok e c' →
      ∃ ts, c.rest = ts ++ c'.rest ∧ Derives .disjunction (ts.map (·.kind)) e.bare) ∧
    ∀ ts rest tree, c.rest = ts ++ rest → Derives .disjunction (ts.map (·.kind)) tree →
      (∀ t ∈ rest.head?, ¬t.kind.Continues) →
      ∃ e c', expression c = .ok e c' ∧ c'.rest = rest ∧ e.bare = tree :=
  ⟨fun _ _ hrun => (reads_expression c).of_ok hrun, fun _ _ _ => exists_run_expression⟩

/-- The expression `not x.y >= -[1,]` before the end of its line: the negation is an operand of the
comparison, the list ends with a comma, and the minus sign makes a product. -/
theorem expression_accepts_grammar_negatedList :
    let token (kind : Token.Kind) : Token := ⟨kind, "", .nowhere, 0, ""⟩
    let one : Value := .number (Float.ofScientific 1 false 0)
    let kinds : List Token.Kind := [.keyword .notWord, .name "x", .sign .dot, .name "y",
      .sign .greaterEq, .sign .minus, .sign .leftBracket, .literal one, .sign .comma,
      .sign .rightBracket]
    let negated : Expr := .negation (.ident .blank "x.y")
    let product : Expr := .opposite (.list .blank [.literal .blank one])
    let c : Cursor := { rest := (kinds ++ [Token.Kind.newline]).map token, ending := .nowhere }
    ∃ e c', expression c = .ok e c' ∧ c'.rest = [token .newline] ∧
      e.bare = .operation .or (.operation .gt negated product) (.operation .eq negated product) ∧
      ∃ ts, c.rest = ts ++ c'.rest ∧ Derives .disjunction (ts.map (·.kind)) e.bare := by
  intro token one kinds negated product c
  have hone : Derives .term [.literal one] (.literal .blank one) :=
    .operand rfl (.operand rfl (.plain (.literal one)))
  have hitems : Enumerates [.literal one] [.literal .blank one] :=
    .single (.operand rfl (.operand rfl (.operand rfl (.operand rfl hone))))
  have hnot : Derives .comparison (.keyword .notWord :: ([.name "x"] ++ [.sign .dot, .name "y"]))
      negated :=
    .operand rfl (.operand rfl (.operand rfl (.not (.plain (.name (.member "y" (.single "x")))))))
  have hminus : Derives .term (.sign .minus :: (.sign .leftBracket :: [.literal one] ++
      [.sign .comma, .sign .rightBracket])) product :=
    .operand rfl (.operand rfl (.minus (.plain (.listWithComma hitems))))
  have hder : Derives .disjunction ((kinds.map token).map (·.kind)) _ :=
    .operand rfl (.operand rfl (.operand rfl (.binary rfl .atLeast hnot hminus)))
  have hclose : ∀ t ∈ [token .newline].head?, ¬t.kind.Continues := by
    rintro t ⟨⟩ (h | h | ⟨_, _, h⟩) <;> cases h
  obtain ⟨e, c', hrun, hrest, hbare⟩ :=
    (expression_accepts_grammar c).2 (kinds.map token) [token .newline] _ rfl hder hclose
  exact ⟨e, c', hrun, hrest, hbare, (expression_accepts_grammar c).1 e c' hrun⟩

end Parser

end BlockScript
