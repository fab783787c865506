import BlockScript.Proofs.ItemBoundaries
import BlockScript.Proofs.Stages
import BlockScript.Proofs.Streams

/-!
# Progress of the front end

The tokens of a source end with the end of the input, before and after macros are expanded, and
nothing but their last token is one. Parsing runs up to it: every round of a loop over items, over
the lines of a body, over faulty lines or over the tokens of such a line passes a token at least, so
that the number of tokens bounds the number of rounds, and no bound on rounds or depths is ever what
ends a loop.
-/

namespace BlockScript

variable {steps : Nat}

open List

/-- Whether a cursor has moved: it has passed a token at least, and is in the same input. -/
structure Cursor.Ahead (c c' : Cursor) : Prop where
  passed : ∃ tokens, tokens ≠ [] ∧ c.rest = tokens ++ c'.rest
  ending : c'.ending = c.ending

/-- A loop, round by round. It goes on as long as `goesOn` says so, and every round moves the
cursor. -/
inductive Rounds (goesOn : Cursor → Prop) (round : Cursor → List Stmt → Cursor → Prop) :
    Cursor → List Stmt → Cursor → Prop
  | done {c : Cursor} (hstop : ¬goesOn c) : Rounds goesOn round c [] c
  | step {c c' c'' : Cursor} {first more : List Stmt} (hgo : goesOn c) (hround : round c first c')
      (hahead : c.Ahead c') (hmore : Rounds goesOn round c' more c'') :
    Rounds goesOn round c (first ++ more) c''

/-- The loop that passes the rest of a line, token by token. -/
inductive PassesLine : Cursor → Cursor → Prop
  | atEnd {c : Cursor} (h : c.rest = []) : PassesLine c c
  | newline {c : Cursor} (h : c.kind? = some .newline) (hahead : c.Ahead c.advance) :
    PassesLine c c.advance
  | token {c c' : Cursor} {kind : Token.Kind} (h : c.kind? = some kind) (hkind : kind ≠ .newline)
      (hahead : c.Ahead c.advance) (hmore : PassesLine c.advance c') : PassesLine c c'

/-- The loop that goes on after a faulty line: it passes the line and all lines after it that are
indented deeper. -/
def Recovers (indent : Nat) (c c' : Cursor) : Prop :=
  ∃ middle, PassesLine c middle ∧
    Rounds (fun c => c.rest ≠ [] ∧ indent < c.indent)
    (fun c out c' => out = [] ∧ PassesLine c c') middle [] c'

namespace Parser

/-- A round of the loop over items: an empty line, a line that is indented, or an item. -/
def itemsRound : Parser (List Stmt) := do
  let c ← get
  if ← accept .newline then return []
  else if 0 < c.indent then
    set ((c.report (.parse .indentedItem c.span)).recover 0)
    return []
  else return (← recovering item 0).toList

/-- A round of the loop over the lines of a body: a line with another indentation, or a
statement. -/
def bodyRound (column : Nat) : Parser (List Stmt) := do
  let c ← get
  if c.indent ≠ column then
    set ((c.report (.parse (.unevenIndentation column c.indent) c.span)).recover column)
    return []
  else return (← recovering statement column).toList

/-- The loop over items. -/
def ItemsLoop : Cursor → List Stmt → Cursor → Prop :=
  Rounds (fun c => c.rest ≠ []) fun c first c' => itemsRound c = .ok first c'

/-- The loop over the lines of a body. -/
def BodyLoop (header column : Nat) : Cursor → List Stmt → Cursor → Prop :=
  Rounds (fun c => c.rest ≠ [] ∧ header < c.indent) fun c first c' => bodyRound column c =
    .ok first c'

end Parser

/-! ### Moving ahead -/

/-- What is left of the input at a cursor, with all places and diagnostics. -/
def Region.after (c : Cursor) : Region where
  tokens := c.rest
  ending := c.ending
  Has _ := True
  Names _ := True
  Blames _ := True
  has_merge _ _ := trivial
  has_span _ _ := trivial
  has_ending := trivial
  named _ _ _ _ := trivial
  blames_parse _ _ _ := trivial

namespace Cursor

variable {c c' c'' : Cursor}

private theorem in_after (c : Cursor) : c.In (.after c) := ⟨suffix_refl _, rfl, fun _ _ => trivial⟩

private theorem In.ahead (h : c'.In (.after c)) (hlt : c'.rest.length < c.rest.length) :
    c.Ahead c' := by
  obtain ⟨tokens, htoks⟩ := h.rest
  refine ⟨⟨tokens, ?_, htoks.symm⟩, h.ending⟩
  rintro rfl
  rw [← show c'.rest = c.rest from htoks] at hlt
  exact Nat.lt_irrefl _ hlt

private theorem Ahead.length_lt (h : c.Ahead c') : c'.rest.length < c.rest.length := by
  obtain ⟨tokens, hne, hrest⟩ := h.passed
  have hpos := length_pos_iff.mpr hne
  rw [hrest, length_append]
  omega

private theorem Ahead.trans (h : c.Ahead c') (h' : c'.Ahead c'') : c.Ahead c'' := by
  obtain ⟨tokens, hne, hrest⟩ := h.passed
  obtain ⟨tokens', -, hrest'⟩ := h'.passed
  refine ⟨⟨tokens ++ tokens', ?_, ?_⟩, h'.ending.trans h.ending⟩
  · simp [hne]
  · rw [hrest, hrest', append_assoc]

private theorem ahead_advance {kind : Token.Kind} (h : c.kind? = some kind) : c.Ahead c.advance :=
  c.in_after.advance.ahead (Transport.length_advance_lt h)

private theorem ahead_recover (hrest : c.rest ≠ []) (d : Diagnostic) (indent : Nat) :
    c.Ahead ((c.report d).recover indent) :=
  ((c.in_after.report trivial).recover indent).ahead (Transport.length_recover_lt hrest d indent)

end Cursor

/-! ### Faulty lines -/

variable {c : Cursor}

private theorem PassesLine.eq_of_nil {c' : Cursor} (h : PassesLine c c') (hrest : c.rest = []) :
    c' = c := by
  have hkind := Transport.kind?_eq_none hrest
  cases h with
  | atEnd => rfl
  | newline h => simp [hkind] at h
  | token h => simp [hkind] at h

private theorem PassesLine.ahead {c' : Cursor} (h : PassesLine c c') (hrest : c.rest ≠ []) :
    c.Ahead c' := by
  induction h with
  | atEnd hnil => exact absurd hnil hrest
  | newline _ hahead => exact hahead
  | @token c c' _ _ _ hahead hmore ih =>
    by_cases hnil : c.advance.rest = []
    · rwa [hmore.eq_of_nil hnil]
    · exact hahead.trans (ih hnil)

namespace Cursor

variable {c : Cursor} (indent : Nat)

/-- Passes lines that are indented deeper than `indent`. -/
def passDeeper (c : Cursor) (indent : Nat) : Cursor :=
  let (lastLine, rest) := skipLines indent false c.lastLine c.rest
  { c with lastLine, rest }

private theorem exists_passesLine (c : Cursor) :
    ∃ middle, PassesLine c middle ∧ c.recover indent = middle.passDeeper indent := by
  induction hrest : c.rest generalizing c with
  | nil =>
    refine ⟨c, .atEnd hrest, ?_⟩
    rw [recover, passDeeper, hrest]
    rfl
  | cons t rest ih =>
    have hkind := kind?_of_rest hrest
    have hadvance : c.advance =
        { c with rest, lastLine := if t.isNewline then c.lastLine else t.span.start.line } := by
      rw [advance, hrest]
    have hahead := ahead_advance hkind
    by_cases hline : t.isNewline = true
    · refine ⟨c.advance, .newline (hkind.trans ?_) hahead, ?_⟩
      · rw [beq_iff_eq.mp hline]
      · rw [recover, passDeeper, hadvance, hrest, skipLines]
        simp [hline]
    · have hne : t.kind ≠ .newline := fun h => hline (beq_iff_eq.mpr h)
      obtain ⟨middle, hpasses, hmiddle⟩ := ih c.advance (by rw [hadvance])
      refine ⟨middle, .token hkind hne hahead hpasses, ?_⟩
      rw [← hmiddle, recover, recover, hadvance, hrest, skipLines]
      simp [hline]

private theorem rounds_passDeeper (c : Cursor) :
    Rounds (fun c => c.rest ≠ [] ∧ indent < c.indent)
    (fun c out c' => out = [] ∧ PassesLine c c') c []
      (c.passDeeper indent) := by
  induction hlen : c.rest.length using Nat.strong_induction_on generalizing c with
  | _ n ih =>
    by_cases hgo : c.rest ≠ [] ∧ indent < c.indent
    · -- A deeper line is passed as a faulty line is.
      have hrecover : c.passDeeper indent = c.recover indent := by
        obtain ⟨t, rest, hrest⟩ := exists_cons_of_ne_nil hgo.1
        have hind : indent < t.indent := by simpa [Cursor.indent, hrest] using hgo.2
        rw [recover, passDeeper, hrest, skipLines, skipLines]
        simp [hind]
      obtain ⟨middle, hpasses, hmiddle⟩ := exists_passesLine indent c
      have hahead := hpasses.ahead hgo.1
      rw [hrecover, hmiddle]
      exact .step hgo ⟨rfl, hpasses⟩ hahead (ih _ (hlen ▸ hahead.length_lt) middle rfl)
    · have hstop : c.passDeeper indent = c := by
        obtain ⟨rest, ending, lastLine, nextId, errors⟩ := c
        cases rest with
        | nil => rfl
        | cons t rest =>
          have hind : ¬indent < t.indent := fun h => hgo ⟨cons_ne_nil _ _, h⟩
          simp [passDeeper, skipLines, hind]
      rw [hstop]
      exact .done hgo

private theorem recovers_recover (c : Cursor) : Recovers indent c (c.recover indent) := by
  obtain ⟨middle, hpasses, hmiddle⟩ := exists_passesLine indent c
  rw [hmiddle]
  exact ⟨middle, hpasses, rounds_passDeeper indent middle⟩

end Cursor

/-! ### Statements -/

private theorem Transport.cursor_after_zero (c : Cursor) : (after 0 []).cursor c = c := by
  have htoken : (after 0 []).token = id := token_of_id rfl rfl
  have hdiag : (after 0 []).diagnostic = id := diagnostic_of_id rfl rfl
  rw [Transport.cursor, htoken, hdiag, map_id, map_id,
    show (after 0 []).tail = [] from rfl, append_nil]
  rfl

private theorem Transport.Carries.run_eq {post : Cursor → Prop} {p q : Parser Stmt}
    (h : (after 0 []).Carries c post (Stmt.relabel (after 0 []).relabeling) p q) : p c = q c := by
  have hkeeps : (after 0 []).relabeling.Keeps := ⟨fun _ => rfl, fun _ => rfl, fun _ => rfl⟩
  have hdiag : (after 0 []).diagnostic = id := diagnostic_of_id rfl rfl
  have hcursor := cursor_after_zero
  cases hp : p c with
  | ok stmt c' =>
    obtain ⟨hq, -⟩ := Ends.of_ok h hp
    rw [hcursor, hcursor, Stmt.relabel_of_keeps hkeeps] at hq
    exact hq.symm
  | error d c' =>
    obtain ⟨hq, -⟩ := Ends.of_error h hp
    rw [hcursor, hcursor, hdiag] at hq
    exact hq.symm

namespace Parser

variable {α β : Type} {c c' : Cursor} {depth : Nat}

private theorem run_statementAt (hdepth : c.rest.length ≤ depth) :
    statementAt depth c = statement c := by
  obtain ⟨extra, rfl⟩ := Nat.exists_eq_add_of_le hdepth
  have hcarries :=
    Transport.carriesStmt_statementAt (T := .after 0 []) extra c.rest.length c (.inl rfl)
  exact (hcarries le_rfl).run_eq.symm

private theorem exists_ahead_recovering {p : Parser α} {q : Parser β} {f : α → β} {Q : α → Prop}
    {ids : α → List Nat} (hmakes : Makes (.after c) c.nextId [] ids Q p)
    (hcarries : (Transport.after 0 []).Carries c ((Transport.after 0 []).Past c) f p q)
    (hrest : c.rest ≠ []) (indent : Nat) :
    ∃ result c', recovering p indent c = .ok result c' ∧ c.Ahead c' := by
  obtain ⟨result, c', hrun⟩ := exists_run_recovering p indent c
  have hlt := (Ends.of_ok (Transport.carries_recovering hrest hcarries indent) hrun).2.2.2
  have hends := makes_recovering hmakes indent c ⟨c.in_after, rfl⟩ c.nextId le_rfl .nil
  exact ⟨result, c', hrun, (hends.of_ok hrun).2.1.ahead hlt⟩

/-! ### Bodies -/

private theorem exists_ahead_bodyRound (hrest : c.rest ≠ []) (column : Nat) :
    ∃ first c', bodyRound column c = .ok first c' ∧ c.Ahead c' := by
  by_cases hcolumn : c.indent = column
  · have hcarries :=
      Transport.carriesStmt_statement (T := .after 0 []) c.rest.length c (.inl rfl) le_rfl
    obtain ⟨result, c', hrun, hahead⟩ :=
      exists_ahead_recovering makes_statement hcarries hrest column
    refine ⟨result.toList, c', ?_, hahead⟩
    rw [bodyRound, run_get_bind, if_neg (by simpa using hcolumn), run_bind_of_ok hrun]
    rfl
  · have hrun : bodyRound column c =
        .ok [] ((c.report (.parse (.unevenIndentation column c.indent) c.span)).recover
        column) := by
      rw [bodyRound, run_get_bind, if_pos hcolumn]
      rfl
    exact ⟨[], _, hrun, c.ahead_recover hrest _ column⟩

private theorem run_bodyLines_of_round {header column : Nat} {first : List Stmt} (steps : Nat)
    (hdepth : c.rest.length ≤ depth) (hgo : c.rest ≠ [] ∧ header < c.indent)
    (hround : bodyRound column c = .ok first c') :
    bodyLines (statementAt depth) header column (steps + 1) c =
      (do return first ++ (← bodyLines (statementAt depth) header column steps) :
      Parser (List Stmt)) c' := by
  have hends : ¬(c.rest.isEmpty || decide (c.indent ≤ header)) = true := by
    simp [hgo.1, hgo.2]
  rw [bodyLines, run_get_bind, if_neg hends]
  by_cases hcolumn : c.indent = column
  · obtain ⟨result, c₁, hrun⟩ := exists_run_recovering statement column c
    have hrun' : recovering (statementAt depth) column c = .ok result c₁ := by
      rw [← hrun, recovering, recovering, run_statementAt hdepth]
    rw [bodyRound, run_get_bind, if_neg (by simpa using hcolumn), run_bind_of_ok hrun] at hround
    obtain ⟨rfl, rfl⟩ := EStateM.Result.ok.inj hround
    rw [if_neg (by simpa using hcolumn), run_bind_of_ok hrun']
  · rw [bodyRound, run_get_bind, if_pos hcolumn] at hround
    obtain ⟨rfl, rfl⟩ := EStateM.Result.ok.inj hround
    rw [if_pos hcolumn]
    change bodyLines (statementAt depth) header column steps _ = _
    exact congrFun (bind_pure _).symm _

private theorem exists_bodyLoop {header column : Nat} (hdepth : c.rest.length ≤ depth)
    (hsteps : c.rest.length ≤ steps) :
    ∃ stmts c', bodyLines (statementAt depth) header column steps c = .ok stmts c' ∧
      BodyLoop header column c stmts c' := by
  induction steps generalizing c with
  | zero =>
    have hnil := eq_nil_of_length_eq_zero (Nat.le_zero.mp hsteps)
    exact ⟨[], c, rfl, .done fun h => h.1 hnil⟩
  | succ steps ih =>
    by_cases hgo : c.rest ≠ [] ∧ header < c.indent
    · obtain ⟨first, c₁, hround, hahead⟩ := exists_ahead_bodyRound hgo.1 column
      have hlt := hahead.length_lt
      obtain ⟨more, c₂, hmore, hloop⟩ := ih (c := c₁) (by omega) (by omega)
      refine ⟨first ++ more, c₂, ?_, .step hgo hround hahead hloop⟩
      rw [run_bodyLines_of_round steps hdepth hgo hround, run_bind_of_ok hmore]
      rfl
    · refine ⟨[], c, ?_, .done hgo⟩
      have hends : (c.rest.isEmpty || decide (c.indent ≤ header)) = true := by
        by_cases hnil : c.rest = []
        · simp [hnil]
        · simp only [Bool.or_eq_true, decide_eq_true_eq]
          exact .inr (Nat.le_of_not_lt fun h => hgo ⟨hnil, h⟩)
      rw [bodyLines, run_get_bind, if_pos hends]
      rfl

/-! ### Items -/

private theorem exists_ahead_itemsRound (hrest : c.rest ≠ []) :
    ∃ first c', itemsRound c = .ok first c' ∧ c.Ahead c' := by
  by_cases hline : c.kind? = some .newline
  · have hrun : itemsRound c = .ok [] c.advance := by
      rw [itemsRound, run_get_bind, run_bind_of_ok (run_accept_of_kind hline)]
      rfl
    exact ⟨[], _, hrun, Cursor.ahead_advance hline⟩
  by_cases hind : 0 < c.indent
  · have hrun : itemsRound c = .ok [] ((c.report (.parse .indentedItem c.span)).recover 0) := by
      rw [itemsRound, run_get_bind, run_bind_of_ok (run_accept_of_ne hline),
        if_neg Bool.false_ne_true, if_pos hind]
      rfl
    exact ⟨[], _, hrun, c.ahead_recover hrest _ 0⟩
  · have hcarries := Transport.carries_item (T := .after 0 []) (c := c) (.inl rfl)
    obtain ⟨result, c', hrun, hahead⟩ := exists_ahead_recovering makes_item hcarries hrest 0
    refine ⟨result.toList, c', ?_, hahead⟩
    rw [itemsRound, run_get_bind, run_bind_of_ok (run_accept_of_ne hline),
      if_neg Bool.false_ne_true, if_neg hind, run_bind_of_ok hrun]
    rfl

private theorem run_items_of_round {first : List Stmt} (steps : Nat) (hrest : c.rest ≠ [])
    (hround : itemsRound c = .ok first c') :
    items (steps + 1) c = (do return first ++ (← items steps) : Parser (List Stmt)) c' := by
  obtain ⟨t, rest, hcons⟩ := exists_cons_of_ne_nil hrest
  have hkind := Cursor.kind?_of_rest hcons
  by_cases hline : t.kind = .newline
  · have hline : c.kind? = some .newline := by rw [hkind, hline]
    rw [itemsRound, run_get_bind, run_bind_of_ok (run_accept_of_kind hline)] at hround
    obtain ⟨rfl, rfl⟩ := EStateM.Result.ok.inj hround
    rw [run_items_of_newline steps hline]
    exact congrFun (bind_pure _).symm _
  have haccept : accept .newline c = .ok false c := run_accept_of_ne (by simp [hkind, hline])
  by_cases hind : 0 < c.indent
  · rw [itemsRound, run_get_bind, run_bind_of_ok haccept, if_neg Bool.false_ne_true, if_pos hind]
      at hround
    obtain ⟨rfl, rfl⟩ := EStateM.Result.ok.inj hround
    rw [run_items_of_indented steps hkind hline hind]
    exact congrFun (bind_pure _).symm _
  · obtain ⟨result, c₁, hrun⟩ := exists_run_recovering item 0 c
    rw [itemsRound, run_get_bind, run_bind_of_ok haccept, if_neg Bool.false_ne_true, if_neg hind,
      run_bind_of_ok hrun] at hround
    obtain ⟨rfl, rfl⟩ := EStateM.Result.ok.inj hround
    rw [run_items_of_item steps hkind hline (Nat.eq_zero_of_not_pos hind), run_bind_of_ok hrun]

private theorem exists_itemsLoop (hsteps : c.rest.length ≤ steps) :
    ∃ stmts c', items steps c = .ok stmts c' ∧ ItemsLoop c stmts c' := by
  induction steps generalizing c with
  | zero =>
    have hnil := eq_nil_of_length_eq_zero (Nat.le_zero.mp hsteps)
    exact ⟨[], c, rfl, .done fun h => h hnil⟩
  | succ steps ih =>
    by_cases hrest : c.rest = []
    · exact ⟨[], c, run_items_of_nil _ hrest, .done fun h => h hrest⟩
    · obtain ⟨first, c₁, hround, hahead⟩ := exists_ahead_itemsRound hrest
      have hlt := hahead.length_lt
      obtain ⟨more, c₂, hmore, hloop⟩ := ih (c := c₁) (by omega)
      refine ⟨first ++ more, c₂, ?_, .step hrest hround hahead hloop⟩
      rw [run_items_of_round steps hrest hround, run_bind_of_ok hmore]
      rfl

end Parser

/-! ### The front end -/

namespace Rounds

variable {goesOn : Cursor → Prop} {round : Cursor → List Stmt → Cursor → Prop} {c c' : Cursor}
  {stmts : List Stmt}

private theorem stops (h : Rounds goesOn round c stmts c') : ¬goesOn c' := by
  induction h with
  | done hstop => exact hstop
  | step _ _ _ _ ih => exact ih

private theorem ending (h : Rounds goesOn round c stmts c') : c'.ending = c.ending := by
  induction h with
  | done => rfl
  | step _ _ hahead _ ih => exact ih.trans hahead.ending

end Rounds

/-- The front end makes progress up to the end of the input. The tokens of a source that can be
scanned, and their expansion, end with the end of the input and contain no other. Parsing the
expansion is a loop over items that stops there. In this loop, in the loops over the lines of bodies
and in those over faulty lines, every round moves the cursor. -/
theorem frontEnd_progress {path : String} {defines : List String} {source : Source}
    {macros : Macros} {tokens : List Token}
    (h : scanSource path defines source = .ok (macros, tokens)) :
    IsStream tokens ∧ IsStream (macros.expand tokens).tokens ∧
      (∃ statements c,
        Parser.ItemsLoop (Cursor.ofTokens (macros.expand tokens).tokens) statements c ∧
        c.rest = [] ∧ (∀ eof ∈ (macros.expand tokens).tokens.getLast?, c.span = eof.span) ∧
        parse (macros.expand tokens).tokens = ⟨⟨statements, c.nextId⟩, c.errors⟩) ∧
      (∀ (header column depth : Nat) (c : Cursor), c.rest.length ≤ depth →
        Parser.statementAt depth c = Parser.statement c ∧
        ∃ stmts c',
          Parser.bodyLines (Parser.statementAt depth) header column c.rest.length c =
            .ok stmts c' ∧ Parser.BodyLoop header column c stmts c') ∧
      ∀ (indent : Nat) (c : Cursor), Recovers indent c (c.recover indent) := by
  obtain ⟨hfault, rfl, hmacros⟩ := scanSource_eq_ok h
  have hscanned := isStream_scan hfault
  have hexpanded : IsStream (macros.expand (scan path source).tokens).tokens :=
    Macros.isStream_expandSteps (Macros.eofFree_predefined hmacros) hscanned le_rfl
  refine ⟨hscanned, hexpanded, ?_, fun header column depth c hdepth =>
    ⟨Parser.run_statementAt hdepth, Parser.exists_bodyLoop hdepth le_rfl⟩,
    fun indent c => c.recovers_recover indent⟩
  generalize (macros.expand (scan path source).tokens).tokens = expanded at hexpanded ⊢
  obtain ⟨statements, c, hrun, hloop⟩ := Parser.exists_itemsLoop (c := .ofTokens expanded) le_rfl
  have hrest : c.rest = [] := Classical.not_not.mp hloop.stops
  refine ⟨statements, c, hloop, hrest, ?_, ?_⟩
  · obtain ⟨front, eof, rfl, heof, hfront⟩ := hexpanded
    intro last hlast
    have hend := hloop.ending
    rw [Cursor.ofTokens_append_eof hfront heof] at hend
    obtain rfl : eof = last := by simpa using hlast
    rw [Cursor.span, hrest]
    exact hend
  · rw [parse, hrun]

/-- A program with a faulty header, an indented line between items and an uneven line in a body. -/
def unevenLines : Source :=
  Source.ofText <|
    "func add:\n  sum += 1\nvar sum = PAUSE\n  sum = 2\n@button \"a\":\n  sum = 1\n" ++
    "    sum = 2\n  sum = 3\n"

/-- It is parsed to its end. -/
theorem frontEnd_progress_unevenLines : ∃ macros tokens statements c,
    scanSource "main.bot" ["PAUSE=2"] unevenLines = .ok (macros, tokens) ∧
      IsStream (macros.expand tokens).tokens ∧
      Parser.ItemsLoop (Cursor.ofTokens (macros.expand tokens).tokens) statements c ∧ c.rest = [] ∧
      statements.length = 2 ∧ c.errors.length = 3 := by
  have hany : (scanSource "main.bot" ["PAUSE=2"] unevenLines).toOption.any (fun p =>
      let parsed := parse (p.1.expand p.2).tokens
      parsed.program.statements.length == 2 && parsed.errors.length == 3) =
        true := by decide +kernel
  obtain ⟨⟨macros, tokens⟩, hscan, hlengths⟩ := exists_of_toOption_any hany
  obtain ⟨-, hstream, ⟨statements, c, hloop, hrest, -, hparse⟩, -⟩ := frontEnd_progress hscan
  simp only [hparse, Bool.and_eq_true, beq_iff_eq] at hlengths
  exact ⟨macros, tokens, statements, c, hscan, hstream, hloop, hrest, hlengths.1, hlengths.2⟩

end BlockScript
