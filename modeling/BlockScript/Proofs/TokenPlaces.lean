import BlockScript.Proofs.Pieces

/-!
# Where tokens stand

A source that is scanned without a fault is cut, line by line, into lexemes and what stands between
them: blanks and comments, which nest and may go on over several lines. Its tokens are these lexemes
in their order, and the marks that end lines. So every token stands where its span says, and what no
token covers is a blank or part of a comment.
-/

namespace BlockScript

open List Piece

variable {path : String} {number column depth i j : Nat} {ps : List Piece}
  {lines : List (List Piece)} {t : Token} {c : Char}

/-- Whether a token stands in lines where its span says. -/
def Token.StandsIn (lines : List String) (t : Token) : Prop :=
  ∃ i line before after, lines[i]? = some line ∧ line.toList = before ++ t.lexeme.toList ++ after ∧
    t.lexeme.toList ≠ [] ∧
    t.span = .onLine (i + 1) (before.length + 1) (before.length + 1 + t.lexeme.toList.length)

/-- Whether a span on one line covers a position. -/
def Span.Covers (s : Span) (p : Position) : Prop :=
  s.start.line = p.line ∧ s.start.column ≤ p.column ∧ p.column < s.stop.column

/-- Whether a token ends before another one starts. -/
def Token.Before (t u : Token) : Prop := t.span.stop.precedes u.span.start

private theorem text_append (ps qs : List Piece) :
    text (ps ++ qs) = text ps ++ text qs := flatMap_append

private theorem exists_piece_of_text (h : (text ps)[j]? = some c) :
    ∃ before p after k, ps = before ++ p :: after ∧ j = (text before).length + k ∧
    p.chars[k]? = some c := by
  induction ps generalizing j with
  | nil => cases h
  | cons p ps ih =>
    have htext : text (p :: ps) = p.chars ++ text ps := rfl
    rw [htext] at h
    by_cases hj : j < p.chars.length
    · rw [getElem?_append_left hj] at h
      exact ⟨[], p, ps, j, rfl, (Nat.zero_add j).symm, h⟩
    · rw [getElem?_append_right (Nat.le_of_not_lt hj)] at h
      obtain ⟨before, q, after, k, rfl, hj', hc⟩ := ih h
      refine ⟨p :: before, q, after, k, rfl, ?_, hc⟩
      rw [show text (p :: before) = p.chars ++ text before from rfl, length_append]
      omega

/-! ### Tokens of a line -/

namespace LineContext

variable {line : LineContext}

private theorem tokens_append (column : Nat) (ps qs : List Piece) :
    line.tokens column (ps ++ qs) = line.tokens column ps ++ line.tokens (column + (text ps).length)
    qs := by
  induction ps generalizing column with
  | nil => rfl
  | cons p ps ih =>
    cases p with
    | gap c =>
      rw [cons_append, tokens, tokens, ih, text_gap, length_cons, Nat.add_assoc, Nat.add_comm 1]
    | lexeme kind c cs =>
      rw [cons_append, tokens, tokens, ih, cons_append, text_lexeme, length_cons, length_append]
      congr 3
      omega

private theorem pairwise_tokens (column : Nat) (ps : List Piece) :
    (line.tokens column ps).Pairwise Token.Before := by
  induction ps generalizing column with
  | nil => exact .nil
  | cons p ps ih =>
    cases p with
    | gap c => exact ih _
    | lexeme kind c cs =>
      refine pairwise_cons.mpr ⟨fun t ht => ?_, ih _⟩
      obtain ⟨before, kind', c', cs', after, rfl, rfl⟩ := line.exists_of_mem_tokens ht
      simp [Token.Before, Position.precedes, token, span, Span.onLine]

end LineContext

/-! ### Tokens of lines -/

/-- A token of lines stands on one of them or behind them; it ends a line or the input, or it
belongs to a line. -/
theorem exists_of_mem_tokensOf (ht : t ∈ tokensOf path number depth lines) :
    number ≤ t.span.start.line ∧ (t.isBreak ∨ ∃ i ps, lines[i]? = some ps ∧
      t ∈ (LineContext.ofLine path (number + i) (text ps)).tokens 1 ps) := by
  induction lines generalizing number depth with
  | nil =>
    have hmark {kind : Token.Kind} (h : t = endMark path number kind) :
        number ≤ t.span.start.line := by
      rw [h]
      exact (Nat.le_refl _)
    rw [tokensOf] at ht
    split at ht
    · have heof := mem_singleton.mp ht
      exact ⟨hmark heof, .inl (heof ▸ rfl)⟩
    · rcases mem_cons.mp ht with hnewline | ht
      · exact ⟨hmark hnewline, .inl (hnewline ▸ rfl)⟩
      · have heof := mem_singleton.mp ht
        exact ⟨hmark heof, .inl (heof ▸ rfl)⟩
  | cons ps lines ih =>
    rw [tokensOf, mem_append, mem_append] at ht
    rcases ht with (ht | ht) | ht
    · obtain ⟨before, kind, c, cs, after, -, rfl⟩ := LineContext.exists_of_mem_tokens _ ht
      exact ⟨Nat.le_refl _, .inr ⟨0, ps, rfl, ht⟩⟩
    · split at ht
      · obtain rfl := mem_singleton.mp ht
        exact ⟨Nat.le_refl _, .inl rfl⟩
      · cases ht
    · obtain ⟨hnum, hbreak | ⟨i, qs, hqs, ht⟩⟩ := ih ht
      · exact ⟨Nat.le_of_succ_le hnum, .inl hbreak⟩
      · rw [Nat.add_assoc, Nat.add_comm 1] at ht
        exact ⟨Nat.le_of_succ_le hnum, .inr ⟨i + 1, qs, hqs, ht⟩⟩

private theorem mem_tokensOf (path : String) (number depth : Nat) (hps : lines[i]? = some ps)
    (ht : t ∈ (LineContext.ofLine path (number + i) (text ps)).tokens 1 ps) :
    t ∈ tokensOf path number depth lines := by
  induction lines generalizing number depth i with
  | nil => cases hps
  | cons first lines ih =>
    rw [tokensOf, mem_append, mem_append]
    cases i with
    | zero =>
      cases hps
      exact .inl (.inl ht)
    | succ i =>
      refine .inr (ih _ _ hps ?_)
      rwa [Nat.add_assoc, Nat.add_comm 1]

private theorem pairwise_tokensOf (path : String) (number depth : Nat) (lines : List (List Piece)) :
    (tokensOf path number depth lines).Pairwise Token.Before := by
  induction lines generalizing number depth with
  | nil =>
    rw [tokensOf]
    split
    · exact pairwise_singleton _ _
    · simp [Token.Before, Position.precedes, endMark, Span.point]
  | cons ps lines ih =>
    have hline {t : Token} (ht : t ∈ (LineContext.ofLine path number (text ps)).tokens 1 ps) :
        t.span.stop.line = number ∧ t.span.stop.column ≤ (text ps).length + 1 := by
      obtain ⟨before, kind, c, cs, after, rfl, rfl⟩ := LineContext.exists_of_mem_tokens _ ht
      refine ⟨rfl, ?_⟩
      rw [text_append, length_append, text_lexeme, length_cons, length_append]
      change 1 + (text before).length + (cs.length + 1) ≤ _
      omega
    have hend : (LineContext.ofLine path number (text ps)).ending.span =
        .point ⟨number, (text ps).length + 1⟩ := rfl
    rw [tokensOf]
    refine pairwise_append.mpr
      ⟨pairwise_append.mpr ⟨LineContext.pairwise_tokens 1 ps, ?_, fun t ht u hu => ?_⟩,
      ih _ _, fun t ht u hu => ?_⟩
    · split
      · exact pairwise_singleton _ _
      · exact .nil
    · split at hu
      · obtain ⟨hnum, hcolumn⟩ := hline ht
        rw [mem_singleton.mp hu]
        simp [Token.Before, Position.precedes, hend, Span.point, hnum, hcolumn]
      · cases hu
    · have hnum : t.span.stop.line = number := by
        rcases mem_append.mp ht with ht | ht
        · exact (hline ht).1
        · split at ht
          · rw [mem_singleton.mp ht]
            rfl
          · cases ht
      have hlater := (exists_of_mem_tokensOf hu).1
      simp [Token.Before, Position.precedes, hnum, Nat.lt_of_succ_le hlater]

/-- A source that is scanned without a fault is cut into lexemes, blanks and comments, and its
tokens are the lexemes with the marks that end lines. So each of its other tokens stands on one
line, as it is written there, each token ends before the next one starts, and a character that no
token covers is none of a lexeme. -/
theorem scan_covers {source : Source} (hfault : (scan path source).fault = none) :
    ∃ cuts, (scan path source).lines = cuts.map (String.ofList ∘ text) ∧ CutLines 0 none cuts ∧
      (scan path source).tokens = tokensOf path 1 0 cuts ∧
      (∀ t ∈ (scan path source).tokens, t.isBreak = false → t.StandsIn (scan path source).lines) ∧
      (scan path source).tokens.Pairwise Token.Before ∧
      ∀ i ps j c, cuts[i]? = some ps → (text ps)[j]? = some c →
        (∀ t ∈ (scan path source).tokens, ¬t.span.Covers ⟨i + 1, j + 1⟩) →
        ∃ before after, ps = before ++ gap c :: after ∧ (text before).length = j := by
  obtain ⟨cuts, -, hcuts, hscan⟩ := exists_cutLines_of_scan hfault
  rw [hscan]
  refine ⟨cuts, rfl, hcuts, rfl, fun t ht hword => ?_, pairwise_tokensOf path 1 0 cuts,
    fun i ps j c hps hc hfree => ?_⟩
  · rcases (exists_of_mem_tokensOf ht).2 with hbreak | ⟨i, ps, hps, ht⟩
    · rw [hbreak] at hword
      cases hword
    · obtain ⟨before, kind, c, cs, after, rfl, rfl⟩ := LineContext.exists_of_mem_tokens _ ht
      refine ⟨i, _, text before, text after, by rw [getElem?_map, hps]; rfl,
        ?_, by simp [LineContext.token], ?_⟩
      · simp [LineContext.token, text_append]
      · simp [LineContext.token, LineContext.span, LineContext.ofLine, Nat.add_comm 1]
  · obtain ⟨before, p, after, k, rfl, rfl, hk⟩ := exists_piece_of_text hc
    cases p with
    | gap d =>
      cases k with
      | zero =>
        cases hk
        exact ⟨before, after, rfl, rfl⟩
      | succ k => cases hk
    | lexeme kind d ds =>
      have hlen : k < ds.length + 1 := (List.getElem?_eq_some_iff.mp hk).1
      have ht := mem_tokensOf path 1 0 hps
        (by rw [LineContext.tokens_append]; exact mem_append_right _ mem_cons_self)
      refine absurd ⟨Nat.add_comm 1 i, ?_, ?_⟩ (hfree _ ht)
      · simp [LineContext.token, LineContext.span, Span.onLine]
        omega
      · simp [LineContext.token, LineContext.span, Span.onLine]
        omega

/-- A line that goes on in the next one, with nested comments and a text that looks like one. -/
def remarks : Source := Source.ofText "n = (1 /* a\n /* b */ */ + \"/*\") // c\n"

/-- Its tokens stand in order. -/
theorem scan_covers_remarks :
    (scan "main.bot" remarks).fault = none ∧ (scan "main.bot" remarks).tokens.length = 9 ∧
      (scan "main.bot" remarks).tokens.Pairwise Token.Before ∧
      ∀ t ∈ (scan "main.bot" remarks).tokens, t.isBreak = false →
      t.StandsIn (scan "main.bot" remarks).lines := by
  have hfault : (scan "main.bot" remarks).fault = none := by decide +kernel
  obtain ⟨cuts, -, -, -, hstands, hbefore, -⟩ := scan_covers hfault
  exact ⟨hfault, by decide +kernel, hbefore, hstands⟩

end BlockScript
