import BlockScript.Proofs.ParserSteps
import BlockScript.Proofs.Retagging

/-!
# Transport of parser runs

A parser does not look at everything before its cursor. It runs alike when places are changed in a
way that keeps how they merge, when indentations are changed in a way that keeps their order, when
nodes are numbered from somewhere else on, when errors were reported before, and when, after the end
of a line, more tokens follow that begin at the outermost level. A transport is a change of all
these things at once. A parser carries over when its run from the changed cursor is the changed run.

A cursor is open if the line that is read has its end before the tokens that follow. At the end of a
line it may have no tokens left, and then it is only ready.
-/

namespace BlockScript

open List Cursor

variable {rest : List Token} {c : Cursor}

/-- A change of what parsers do not look at. -/
structure Transport where
  /-- What is added to the numbers of nodes. -/
  shift : Nat
  /-- What becomes of places. -/
  span : Span → Span
  /-- What becomes of lines. -/
  line : Nat → Nat
  /-- What becomes of indentations. -/
  indent : Nat → Nat
  /-- What becomes of the place of the end of the input. -/
  ending : Span → Span
  /-- The tokens that follow. -/
  tail : List Token
  /-- The errors that were reported before. -/
  earlier : List Diagnostic
  span_merge : ∀ a b, span (a.merge b) = (span a).merge (span b)
  line_span : ∀ s, (span s).start.line = line s.start.line
  indent_lt_iff : ∀ a b, indent a < indent b ↔ a < b
  indent_zero : indent 0 = 0
  ending_eq : tail = [] → ending = span
  /-- What follows begins at the outermost level and does not go on with a condition. -/
  tail_apart : ∀ t ∈ tail.head?,
    t.indent = 0 ∧ t.kind ≠ .keyword .elifWord ∧ t.kind ≠ .keyword .elseWord

namespace Transport

variable (T : Transport) (t : Token)

/-- A token after the change. -/
def token (t : Token) : Token := { t with span := T.span t.span, indent := T.indent t.indent }

/-- A fault after the change: it quotes the changed indentations. -/
def fault : SyntaxFault → SyntaxFault
  | .unevenIndentation columns found => .unevenIndentation (T.indent columns) (T.indent found)
  | other => other

/-- A cause after the change. -/
def cause : Cause → Cause
  | .parse fault => .parse (T.fault fault)
  | other => other

/-- A diagnostic after the change. -/
def diagnostic (d : Diagnostic) : Diagnostic :=
  { d with cause := T.cause d.cause, span := T.span d.span }

/-- A tag after the change. -/
def tag (tag : Tag) : Tag := ⟨tag.id + T.shift, T.span tag.span⟩

/-- The change of marks in programs. -/
def relabeling : Relabeling := ⟨T.tag, T.span, T.line⟩

/-- A cursor after the change. -/
def cursor (c : Cursor) : Cursor where
  rest := c.rest.map T.token ++ T.tail
  ending := T.ending c.ending
  lastLine := T.line c.lastLine
  nextId := c.nextId + T.shift
  errors := T.earlier ++ c.errors.map T.diagnostic

/-- Whether tokens end with the end of a line. -/
def EndsLine (rest : List Token) : Prop := ∃ t ∈ rest.getLast?, t.isNewline

/-- A cursor on a line that ends before anything follows. -/
def Open (c : Cursor) : Prop := T.tail = [] ∨ EndsLine c.rest

/-- An open cursor, or one that has reached what follows. -/
def Ready (c : Cursor) : Prop := T.Open c ∨ c.rest = []

/-- A cursor that is ready after something was passed. -/
def Past (c c' : Cursor) : Prop := T.Ready c' ∧ c'.rest.length < c.rest.length

/-! ### Indentations -/

private theorem indent_le_iff (a b : Nat) : T.indent a ≤ T.indent b ↔ a ≤ b := by
  have h := T.indent_lt_iff b a
  omega

/-- Indentations stay apart. -/
theorem indent_inj {a b : Nat} : T.indent a = T.indent b ↔ a = b := by
  have h₁ := T.indent_le_iff a b
  have h₂ := T.indent_le_iff b a
  omega

/-! ### Tokens -/

@[simp] private theorem kind_token : (T.token t).kind = t.kind := rfl

@[simp] private theorem isNewline_token : (T.token t).isNewline = t.isNewline := rfl

@[simp] private theorem span_token : (T.token t).span = T.span t.span := rfl

@[simp] private theorem indent_token : (T.token t).indent = T.indent t.indent := rfl

/-- The place of what is retagged. -/
@[simp] theorem span_retag (e : Expr) : (e.retag T.tag).span = T.span e.span := by
  rw [Expr.span, Expr.tag_retag]
  rfl

/-! ### Lines -/

variable {T}

private theorem EndsLine.of_cons {t : Token} (h : EndsLine (t :: rest)) :
    EndsLine rest ∨ rest = [] ∧ t.isNewline := by
  obtain ⟨last, hlast, hline⟩ := h
  cases rest with
  | nil =>
    obtain rfl : t = last := by simpa using hlast
    exact .inr ⟨rfl, hline⟩
  | cons next rest =>
    rw [getLast?_cons_cons] at hlast
    exact .inl ⟨last, hlast, hline⟩

private theorem EndsLine.ne_nil (h : EndsLine rest) : rest ≠ [] := by
  rintro rfl
  obtain ⟨last, hlast, -⟩ := h
  cases hlast

/-- Nothing follows at the end. -/
theorem Open.tail_eq_nil (h : T.Open c) (hrest : c.rest = []) : T.tail = [] :=
  h.resolve_right fun hends => hends.ne_nil hrest

/-- Passing a token of a line leaves the cursor on that line. -/
theorem Open.advance (h : T.Open c) (hkind : c.kind? ≠ some .newline) : T.Open c.advance := by
  rcases h with htail | hends
  · exact .inl htail
  · obtain ⟨t, rest, hrest⟩ := exists_cons_of_ne_nil hends.ne_nil
    rw [kind?_of_rest hrest] at hkind
    rw [hrest] at hends
    refine .inr ?_
    rw [advance_of_rest hrest]
    refine hends.of_cons.resolve_right fun ⟨_, hline⟩ => hkind ?_
    rw [eq_of_beq hline]

/-- Passing the end of a line leaves the cursor ready. -/
theorem Open.ready_advance (h : T.Open c) : T.Ready c.advance := by
  rcases h with htail | hends
  · exact .inl (.inl htail)
  · obtain ⟨t, rest, hrest⟩ := exists_cons_of_ne_nil hends.ne_nil
    rw [hrest] at hends
    rw [Ready, Open, advance_of_rest hrest]
    rcases hends.of_cons with hends' | ⟨hnil, -⟩
    · exact .inl (.inr hends')
    · exact .inr hnil

/-! ### The changed cursor -/

/-- What follows is counted. -/
@[simp] theorem length_rest_cursor (c : Cursor) :
    (T.cursor c).rest.length = c.rest.length + T.tail.length := by
  simp [cursor]

private theorem rest_cursor_of_cons {t : Token} (h : c.rest = t :: rest) :
    (T.cursor c).rest = T.token t :: (rest.map T.token ++ T.tail) := by
  simp [cursor, h]

/-- What follows comes next. -/
theorem rest_cursor_of_nil (h : c.rest = []) : (T.cursor c).rest = T.tail := by
  simp [cursor, h]

/-- Reports carry over. -/
@[simp] theorem report_cursor (c : Cursor) (d : Diagnostic) :
    (T.cursor c).report (T.diagnostic d) = T.cursor (c.report d) := by
  simp [report, cursor]

section Open

variable {c : Cursor} (hc : T.Open c)

include hc

/-- The end carries over. -/
theorem rest_cursor_eq_nil (hrest : c.rest = []) : (T.cursor c).rest = [] := by
  rw [rest_cursor_of_nil hrest, hc.tail_eq_nil hrest]

/-- So does what is not the end. -/
theorem isEmpty_rest_cursor : (T.cursor c).rest.isEmpty = c.rest.isEmpty := by
  cases hrest : c.rest with
  | nil => rw [rest_cursor_eq_nil hc hrest]
  | cons t rest => rw [rest_cursor_of_cons hrest]; rfl

/-- Kinds carry over. -/
theorem kind?_cursor : (T.cursor c).kind? = c.kind? := by
  cases hrest : c.rest with
  | nil => simp [kind?, rest_cursor_eq_nil hc hrest, hrest]
  | cons t rest => simp [kind?, rest_cursor_of_cons hrest, hrest]

/-- Places carry over. -/
theorem span_cursor : (T.cursor c).span = T.span c.span := by
  cases hrest : c.rest with
  | nil =>
    have htail := hc.tail_eq_nil hrest
    simp [Cursor.span, htail, hrest, cursor, T.ending_eq htail]
  | cons t rest => simp [Cursor.span, rest_cursor_of_cons hrest, hrest]

/-- Indentations carry over. -/
theorem indent_cursor : (T.cursor c).indent = T.indent c.indent := by
  cases hrest : c.rest with
  | nil => simp [Cursor.indent, rest_cursor_eq_nil hc hrest, hrest, T.indent_zero]
  | cons t rest => simp [Cursor.indent, rest_cursor_of_cons hrest, hrest]

/-- What is found carries over. -/
theorem found_cursor : (T.cursor c).found = c.found := by
  cases hrest : c.rest with
  | nil => simp [found, rest_cursor_eq_nil hc hrest, hrest]
  | cons t rest =>
    rw [found, found, rest_cursor_of_cons hrest, hrest]
    rfl

/-- Passing carries over. -/
theorem advance_cursor : (T.cursor c).advance = T.cursor c.advance := by
  cases hrest : c.rest with
  | nil => simp [advance, hrest, rest_cursor_eq_nil hc hrest]
  | cons t rest =>
    simp only [advance, hrest, rest_cursor_of_cons hrest, isNewline_token, span_token, T.line_span]
    simp [cursor, apply_ite T.line]

end Open

/-- Whether a body has ended is seen alike, also where what follows has been reached. -/
theorem isEmpty_or_indent_le_cursor (c : Cursor) (header : Nat) :
    ((T.cursor c).rest.isEmpty || decide ((T.cursor c).indent ≤ T.indent header)) =
      (c.rest.isEmpty || decide (c.indent ≤ header)) := by
  cases hrest : c.rest with
  | nil =>
    rw [rest_cursor_of_nil hrest]
    cases htail : T.tail with
    | nil => rfl
    | cons t more =>
      have hind : t.indent = 0 := (T.tail_apart t (by simp [htail])).1
      simp [Cursor.indent, rest_cursor_of_nil hrest, htail, hind]
  | cons t rest =>
    simp [Cursor.indent, rest_cursor_of_cons hrest, hrest, T.indent_le_iff]

/-- Whether a condition goes on is seen alike, also where what follows has been reached. -/
theorem kind?_beq_cursor (hc : T.Ready c) {word : Keyword}
    (hword : word = .elifWord ∨ word = .elseWord) :
    ((T.cursor c).kind? == some (.keyword word)) = (c.kind? == some (.keyword word)) := by
  rcases hc with hopen | hrest
  · rw [kind?_cursor hopen]
  · have hapart : ∀ t ∈ T.tail.head?, t.kind ≠ .keyword word := by
      intro t ht
      rcases hword with rfl | rfl
      · exact (T.tail_apart t ht).2.1
      · exact (T.tail_apart t ht).2.2
    simp only [kind?, rest_cursor_of_nil hrest, hrest]
    cases hhead : T.tail.head? with
    | none => rfl
    | some t =>
      have hne := hapart t hhead
      simp [hne]

/-! ### Going on after a fault -/

private theorem length_skipLines_le (indent : Nat) (rest : List Token) :
    ∀ (inLine : Bool) (lastLine : Nat), (skipLines indent inLine lastLine rest).2.length ≤
      rest.length := by
  induction rest with
  | nil => intro inLine lastLine; exact Nat.le_refl _
  | cons t rest ih =>
    intro inLine lastLine
    unfold skipLines
    split
    · split
      · exact Nat.le_succ_of_le (ih _ _)
      · exact Nat.le_succ_of_le (ih _ _)
    · exact Nat.le_refl _

private theorem skipLines_map (indent : Nat) (rest : List Token) :
    ∀ (inLine : Bool) (lastLine : Nat), (T.tail = [] ∨ EndsLine rest ∨ inLine = false ∧ rest = []) →
      let (lastLine', rest') := skipLines indent inLine lastLine rest
    skipLines (T.indent indent) inLine (T.line lastLine) (rest.map T.token ++ T.tail) =
        (T.line lastLine', rest'.map T.token ++ T.tail) ∧
      (T.tail = [] ∨ EndsLine rest' ∨ rest' = []) := by
  induction rest with
  | nil =>
    intro inLine lastLine h
    refine ⟨?_, .inr (.inr rfl)⟩
    rw [map_nil, nil_append]
    cases htail : T.tail with
    | nil => rfl
    | cons t more =>
      obtain ⟨rfl, -⟩ : inLine = false ∧ _ :=
        (h.resolve_left (by simp [htail])).resolve_left fun hends => hends.ne_nil rfl
      have hind : t.indent = 0 := (T.tail_apart t (by simp [htail])).1
      simp [skipLines, hind]
  | cons t rest ih =>
    intro inLine lastLine h
    have hends : T.tail = [] ∨ EndsLine rest ∨ rest = [] ∧ t.isNewline := by
      rcases h with htail | hends | ⟨-, hnil⟩
      · exact .inl htail
      · exact .inr hends.of_cons
      · cases hnil
    simp only [map_cons, cons_append, skipLines, indent_token, T.indent_lt_iff,
      isNewline_token, span_token, T.line_span]
    split
    · split
      · rename_i hline
        refine ih false lastLine ?_
        rcases hends with htail | hends | ⟨hnil, -⟩
        · exact .inl htail
        · exact .inr (.inl hends)
        · exact .inr (.inr ⟨rfl, hnil⟩)
      · rename_i hline
        refine ih true _ ?_
        rcases hends with htail | hends | ⟨-, hline'⟩
        · exact .inl htail
        · exact .inr (.inl hends)
        · exact absurd hline' hline
    · refine ⟨by simp, ?_⟩
      rcases h with htail | hends' | ⟨-, hnil⟩
      · exact .inl htail
      · exact .inr (.inl hends')
      · cases hnil

/-- Going on after a fault carries over, and leaves the cursor ready. -/
theorem recover_cursor (hc : T.Open c) (d : Diagnostic) (indent : Nat) :
    ((T.cursor c).report (T.diagnostic d)).recover (T.indent indent) =
        T.cursor ((c.report d).recover indent) ∧ T.Ready ((c.report d).recover indent) := by
  have h := skipLines_map (T := T) indent c.rest true c.lastLine (hc.imp_right .inl)
  obtain ⟨hskip, hrest⟩ := h
  rw [report_cursor]
  refine ⟨?_, ?_⟩
  · simp [recover, report, cursor, hskip]
  · exact or_assoc.mpr hrest

/-- Going on after a fault passes a token, if there is one. -/
theorem length_recover_lt (hrest : c.rest ≠ []) (d : Diagnostic) (indent : Nat) :
    ((c.report d).recover indent).rest.length < c.rest.length := by
  obtain ⟨t, rest, hcons⟩ := exists_cons_of_ne_nil hrest
  have hle (inLine : Bool) (lastLine : Nat) := length_skipLines_le indent rest inLine lastLine
  rw [recover, report, hcons]
  simp only [skipLines, Bool.true_or, if_true]
  split
  · exact Nat.lt_succ_of_le (hle _ _)
  · exact Nat.lt_succ_of_le (hle _ _)

end Transport

end BlockScript
