import BlockScript.Proofs.TransportedParsers

/-!
# Items are parsed one by one

Where an item begins, the lines before it do not matter to it, whether they are faulty or not.
Parsing lines and then the items after them gives what parsing each of the two gives, with the nodes
of the second numbered on from the first, and the errors of both.
-/

namespace BlockScript

variable {eof : Token} {tokens : List Token}

open List

/-- Whether a token begins an item: it stands at the outermost level and is one of the words and
signs that items begin with. -/
def Token.BeginsItem (t : Token) : Prop :=
  t.indent = 0 ∧ t.kind ∈ [.sign .atSign, .keyword .eventWord, .keyword .varWord,
    .keyword .constWord, .keyword .funcWord]

instance (t : Token) : Decidable t.BeginsItem := inferInstanceAs (Decidable (_ ∧ _))

/-- The change that adds `shift` to the numbers of nodes. -/
def Relabeling.shifting (shift : Nat) : Relabeling :=
  ⟨fun tag => { tag with id := tag.id + shift }, id, id⟩

/-- A parsed program followed by another one, whose nodes are numbered on. -/
def Parsed.append (first second : Parsed) : Parsed where
  program :=
    { statements := first.program.statements ++
        second.program.statements.map (Stmt.relabel (.shifting first.program.nextId))
      nextId := first.program.nextId + second.program.nextId }
  errors := first.errors ++ second.errors

namespace Token.BeginsItem

variable {t : Token} (ht : t.BeginsItem)

include ht

private theorem kind_cases : t.kind = .sign .atSign ∨ t.kind = .keyword .eventWord ∨
    t.kind = .keyword .varWord ∨ t.kind = .keyword .constWord ∨ t.kind = .keyword .funcWord := by
  simpa using ht.2

private theorem ne_newline : t.kind ≠ .newline := by
  rcases ht.kind_cases with h | h | h | h | h <;> simp [h]

private theorem apart :
    t.indent = 0 ∧ t.kind ≠ .keyword .elifWord ∧ t.kind ≠ .keyword .elseWord := by
  refine ⟨ht.1, ?_⟩
  rcases ht.kind_cases with h | h | h | h | h <;> simp [h]

end Token.BeginsItem

namespace Transport

/-- The change that puts tokens after the others, the first of which begins an item. -/
def followedBy (t : Token) (rest : List Token) (ending : Span) (ht : t.BeginsItem) : Transport where
  shift := 0
  span := id
  line := id
  indent := id
  ending _ := ending
  tail := t :: rest
  earlier := []
  span_merge _ _ := rfl
  line_span _ := rfl
  indent_lt_iff _ _ := Iff.rfl
  indent_zero := rfl
  ending_eq h := by cases h
  tail_apart first hfirst := by
    cases hfirst
    exact ht.apart

/-- The change that numbers nodes on, after errors were reported. -/
def after (shift : Nat) (earlier : List Diagnostic) : Transport where
  shift := shift
  span := id
  line := id
  indent := id
  ending := id
  tail := []
  earlier := earlier
  span_merge _ _ := rfl
  line_span _ := rfl
  indent_lt_iff _ _ := Iff.rfl
  indent_zero := rfl
  ending_eq _ := rfl
  tail_apart _ h := by cases h

variable {T : Transport}

private theorem cause_of_id (hind : T.indent = id) (cause : Cause) : T.cause cause = cause := by
  unfold Transport.cause fault
  split
  · split <;> simp_all
  · rfl

/-- Diagnostics stay. -/
theorem diagnostic_of_id (hspan : T.span = id) (hind : T.indent = id) : T.diagnostic = id := by
  funext d
  rw [diagnostic, cause_of_id hind, hspan]
  rfl

/-- Tokens stay. -/
theorem token_of_id (hspan : T.span = id) (hind : T.indent = id) : T.token = id := by
  funext t
  rw [token, hspan, hind]
  rfl

end Transport

namespace Parser

variable {α : Type} {c : Cursor} {t : Token} {rest : List Token}

private theorem run_pass_lastLine {f : Span → Parser α} (hrest : c.rest = t :: rest)
    (ht : t.kind ≠ .newline) (lastLine : Nat) :
    (pass >>= f) { c with lastLine } = (pass >>= f) c := by
  have hnewline : t.isNewline = false := beq_eq_false_iff_ne.mpr ht
  have hadvance : Cursor.advance { c with lastLine } = c.advance := by
    simp [Cursor.advance, hrest, hnewline]
  rw [run_pass_bind, run_pass_bind, hadvance]
  rfl

private theorem run_item_lastLine (hrest : c.rest = t :: rest) (ht : t.BeginsItem)
    (lastLine : Nat) : item { c with lastLine } = item c := by
  have hkind := Cursor.kind?_of_rest hrest
  have hkind' : Cursor.kind? { c with lastLine } = some t.kind := hkind
  rw [item, run_get_bind, run_get_bind, hkind, hkind']
  rcases ht.kind_cases with h | h | h | h | h <;> rw [h]
  · change handler _ = handler _
    rw [handler, run_get_bind, run_get_bind]
    exact run_pass_lastLine hrest ht.ne_newline lastLine
  · change eventDecl _ = eventDecl _
    rw [eventDecl, run_get_bind, run_get_bind]
    exact run_pass_lastLine hrest ht.ne_newline lastLine
  · exact run_pass_lastLine hrest ht.ne_newline lastLine
  · exact run_pass_lastLine hrest ht.ne_newline lastLine
  · change functionDecl _ = functionDecl _
    rw [functionDecl, run_get_bind, run_get_bind]
    exact run_pass_lastLine hrest ht.ne_newline lastLine

private theorem run_items_lastLine (hrest : c.rest = t :: rest) (ht : t.BeginsItem)
    (lastLine steps : Nat) : items (steps + 1) { c with lastLine } = items (steps + 1) c := by
  have hkind := Cursor.kind?_of_rest hrest
  have hind : c.indent = 0 := by
    rw [Cursor.indent, hrest]
    exact ht.1
  rw [run_items_of_item steps hkind ht.ne_newline hind,
    run_items_of_item steps (c := { c with lastLine }) hkind ht.ne_newline hind]
  refine run_bind_congr ?_
  rw [recovering, recovering, run_item_lastLine hrest ht lastLine]

end Parser

/-- The end is cut off. -/
theorem Cursor.ofTokens_append_eof (htoks : ∀ t ∈ tokens, t.isEof = false) (heof : eof.isEof) :
    Cursor.ofTokens (tokens ++ [eof]) = { rest := tokens, ending := eof.span } := by
  have hfind : tokens.find? (·.isEof) = none := find?_eq_none.mpr fun t ht => by simp [htoks t ht]
  have hrest : (tokens ++ [eof]).takeWhile (!·.isEof) = tokens := by
    rw [takeWhile_append_of_pos fun t ht => by simp [htoks t ht]]
    simp [heof]
  rw [Cursor.ofTokens, hrest, find?_append, hfind]
  simp [heof]

/-- What is run is parsed. -/
theorem parse_of_run (htoks : ∀ t ∈ tokens, t.isEof = false) (heof : eof.isEof)
    {statements : List Stmt} {c : Cursor}
    (hrun : Parser.items tokens.length { rest := tokens, ending := eof.span } = .ok statements c) :
    parse (tokens ++ [eof]) = ⟨⟨statements, c.nextId⟩, c.errors⟩ := by
  rw [parse, Cursor.ofTokens_append_eof htoks heof]
  dsimp only
  rw [hrun]

private theorem run_items_append {lines : List Token} {t : Token} (rest : List Token)
    (ending ending' : Span) (hends : lines = [] ∨ ∃ t ∈ lines.getLast?, t.isNewline)
    (ht : t.BeginsItem) :
    ∃ statements c left, Parser.items lines.length { rest := lines, ending := ending' } =
      .ok statements c ∧
      Parser.items (lines ++ t :: rest).length { rest := lines ++ t :: rest, ending } =
      ((statements ++ ·) <$> Parser.items (left + 1))
        { rest := t :: rest, ending, nextId := c.nextId, errors := c.errors } ∧
      rest.length ≤ left := by
  let T := Transport.followedBy t rest ending ht
  let start : Cursor := { rest := lines, ending := ending' }
  have hready : T.Ready start := by
    rcases hends with hnil | hline
    · exact .inr hnil
    · exact .inl (.inr hline)
  obtain ⟨statements, c, left, hrun, hrest, hleft, hfollowed⟩ :=
    Transport.run_items_cursor lines.length (lines ++ t :: rest).length start hready
      (Nat.le_refl _) (by simp [T, start, Transport.followedBy])
  obtain ⟨left, rfl⟩ : ∃ k, left = k + 1 :=
    ⟨left - 1, by simp [T, Transport.followedBy] at hleft; omega⟩
  have hstmts : statements.map (Stmt.relabel T.relabeling) = statements := by
    rw [← Stmt.relabelAll_eq_map]
    exact Stmt.relabelAll_of_keeps ⟨fun _ => rfl, fun _ => rfl, fun _ => rfl⟩ statements
  have hcursor (c : Cursor) : T.cursor c =
      { rest := c.rest ++ t :: rest, ending, lastLine := c.lastLine, nextId := c.nextId,
        errors := c.errors } := by
    rw [Transport.cursor, Transport.token_of_id rfl rfl, Transport.diagnostic_of_id rfl rfl]
    simp [T, Transport.followedBy]
  rw [hcursor, hcursor, hstmts, hrest, nil_append] at hfollowed
  refine ⟨statements, c, left, hrun, ?_, by simpa [T, Transport.followedBy] using hleft⟩
  rw [hfollowed]
  exact run_bind_congr (Parser.run_items_lastLine
    (c := { rest := t :: rest, ending, nextId := c.nextId, errors := c.errors }) rfl ht
    c.lastLine left)

private theorem run_items_after (tokens : List Token) (ending : Span) (shift : Nat)
    (earlier : List Diagnostic) (steps : Nat) (hsteps : tokens.length ≤ steps) :
    ∃ statements c c', Parser.items tokens.length { rest := tokens, ending } = .ok statements c ∧
      Parser.items steps { rest := tokens, ending, nextId := shift, errors := earlier } =
      .ok (statements.map (Stmt.relabel (.shifting shift))) c' ∧ c'.nextId = shift + c.nextId ∧
      c'.errors = earlier ++ c.errors := by
  let T := Transport.after shift earlier
  obtain ⟨statements, c, left, hrun, hrest, -, hmoved⟩ :=
    Transport.run_items_cursor (T := T) tokens.length steps { rest := tokens, ending }
      (.inl (.inl rfl)) (Nat.le_refl _) hsteps
  have hcursor : T.cursor { rest := tokens, ending } =
      { rest := tokens, ending, nextId := shift, errors := earlier } := by
    rw [Transport.cursor, Transport.token_of_id rfl rfl]
    simp [T, Transport.after]
  have hlast : (T.cursor c).rest = [] := Transport.rest_cursor_of_nil hrest
  refine ⟨statements, c, T.cursor c, hrun, ?_, Nat.add_comm _ _, ?_⟩
  · rw [← hcursor, hmoved, map_eq_pure_bind, run_bind_of_ok (Parser.run_items_of_nil left hlast),
      append_nil]
    rfl
  · rw [Transport.cursor, Transport.diagnostic_of_id rfl rfl, map_id]
    rfl

/-- Items do not depend on the lines before them: parsing lines and then items gives what parsing
each of them gives, errors included. -/
theorem parse_append {lines items : List Token} {eof eof' : Token}
    (hlines : ∀ t ∈ lines, t.isEof = false) (hitems : ∀ t ∈ items, t.isEof = false)
    (heof : eof.isEof) (heof' : eof'.isEof) (hends : lines = [] ∨ ∃ t ∈ lines.getLast?, t.isNewline)
    (hbegins : ∃ t ∈ items.head?, t.BeginsItem) :
    parse (lines ++ items ++ [eof]) = (parse (lines ++ [eof'])).append
    (parse (items ++ [eof])) := by
  obtain ⟨t, hhead, ht⟩ := hbegins
  obtain ⟨rest, rfl⟩ := List.head?_eq_some_iff.mp hhead
  obtain ⟨first, c₁, left, hfirst, hboth, hleft⟩ :=
    run_items_append rest eof.span eof'.span hends ht
  obtain ⟨second, c₂, c₃, hsnd, hafter, hnext, herrs⟩ :=
    run_items_after (t :: rest) eof.span c₁.nextId c₁.errors (left + 1) (by simpa using hleft)
  have hall : ∀ u ∈ lines ++ t :: rest, u.isEof = false := by
    intro u hu
    rcases List.mem_append.mp hu with h | h
    · exact hlines u h
    · exact hitems u h
  rw [map_eq_pure_bind, run_bind_of_ok hafter] at hboth
  rw [parse_of_run hlines heof' hfirst, parse_of_run hitems heof hsnd, parse_of_run hall heof hboth,
    hnext, herrs]
  rfl

/-- A handler with a line that is at fault, and a line below it that is passed with it. -/
private def faultyHandler : List Token :=
  [⟨.sign .atSign, "@", .nowhere, 0, ""⟩, ⟨.name "start", "start", .nowhere, 0, ""⟩,
    ⟨.sign .colon, ":", .nowhere, 0, ""⟩, ⟨.newline, "", .nowhere, 0, ""⟩,
    ⟨.name "level", "level", .nowhere, 2, ""⟩, ⟨.sign .assign, "=", .nowhere, 2, ""⟩,
    ⟨.newline, "", .nowhere, 2, ""⟩, ⟨.name "stop", "stop", .nowhere, 4, ""⟩,
    ⟨.newline, "", .nowhere, 4, ""⟩]

/-- The declaration of a variable that copies another one. -/
private def levelCopy : List Token :=
  [⟨.keyword .varWord, "var", .nowhere, 0, ""⟩, ⟨.name "copy", "copy", .nowhere, 0, ""⟩,
    ⟨.sign .assign, "=", .nowhere, 0, ""⟩, ⟨.name "level", "level", .nowhere, 0, ""⟩,
    ⟨.newline, "", .nowhere, 0, ""⟩]

private def inputEnd : Token := ⟨.eof, "", .nowhere, 0, ""⟩

/-- The fault stays where it is. -/
theorem parse_append_faultyHandler :
    parse (faultyHandler ++ levelCopy ++ [inputEnd]) =
        (parse (faultyHandler ++ [inputEnd])).append (parse (levelCopy ++ [inputEnd])) ∧
      (parse (faultyHandler ++ [inputEnd])).errors.length = 1 ∧
      (parse (levelCopy ++ [inputEnd])).program.nextId = 1 :=
  ⟨parse_append (by decide) (by decide) rfl rfl (.inr ⟨_, rfl, rfl⟩) ⟨_, rfl, by decide⟩, by decide,
    by decide⟩

end BlockScript
