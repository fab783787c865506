import BlockScript.Proofs.Spelling

/-!
# Respacing

The tokens of a source can be written down again, one line for each logical line, behind the
indentation of its first token and with one space between lexemes. What is written is scanned into
the same tokens: a lexeme is recognised if a space follows it, and a line that brackets keep open is
joined already.
-/

namespace BlockScript

open List Piece

/-- What a token is and how it is written. -/
def Token.written (t : Token) : Token.Kind × String := (t.kind, t.lexeme)

/-- The logical lines of tokens: those before each mark that ends a line. -/
def logicalLines (tokens : List Token) :
    List (List Token) := (tokens.splitOnP Token.isNewline).dropLast

/-- The indentation of a logical line, which is that of its first token. -/
def lineIndent (line : List Token) : Option Nat := line.head?.map Token.indent

/-- A logical line behind its indentation, with one space between lexemes. -/
def respacedLine : List Token → List Char
  | [] => []
  | t :: line =>
    List.replicate t.indent ' ' ++ (t.lexeme.toList ++ line.flatMap fun t => ' ' :: t.lexeme.toList)

/-- The text of tokens with even spaces. -/
def respaced (tokens : List Token) : String :=
  String.ofList (((logicalLines tokens).map respacedLine).flatMap (· ++ ['\n']))

/-- Whether a token is written with a lexeme that stands on one line. -/
def Token.IsLexical (t : Token) : Prop :=
  ∃ c cs, IsLexeme c t.kind cs ∧ t.lexeme = String.ofList (c :: cs) ∧ '\n' ∉ c :: cs

/-- Pieces of a line that some tokens are written with. -/
structure Writes (chars : List Char) (line : List Token) (ps : List Piece) : Prop where
  text : text ps = chars
  kinds : kinds ps = line.map Token.kind
  cut : Cut 0 ps 0
  last : chars.getLast? ≠ some '\r'
  oneLine : '\n' ∉ chars
  tokens : ∀ (context : LineContext) (column : Nat),
    (context.tokens column ps).map Token.written = line.map Token.written

section Lines

variable {chars : List Char} {line rest : List Token} {t newline : Token} {ps : List Piece}

private theorem Writes.blank (h : Writes chars line ps) :
    Writes (' ' :: chars) line (.gap ' ' :: ps) where
  text := by rw [text_gap, h.text]
  kinds := h.kinds
  cut := .blank rfl h.cut
  last := by
    have hlast := h.last
    cases hd : chars.getLast? <;> simp_all [getLast?_cons]
  oneLine := by simpa using h.oneLine
  tokens context column := h.tokens context (column + 1)

private theorem Writes.indented (h : Writes chars line ps) (indent : Nat) :
    Writes (List.replicate indent ' ' ++ chars) line (indented indent ps) := by
  induction indent with
  | zero => exact h
  | succ indent ih => exact ih.blank

private theorem Writes.exists_cons (h : Writes chars line ps) (hstops : Stops chars)
    (ht : t.IsLexical) :
    ∃ ps', Writes (t.lexeme.toList ++ chars) (t :: line) ps' ∧ ∀ c ∈ (Piece.text ps').head?,
    isIndent c = false := by
  obtain ⟨c, cs, hlexeme, hchars, hone⟩ := ht
  rw [hchars, String.toList_ofList]
  refine ⟨.lexeme t.kind c cs :: ps,
    ⟨by rw [text_lexeme, h.text, cons_append], congrArg (t.kind :: ·) h.kinds, ?_, ?_, ?_, ?_⟩, ?_⟩
  · rw [← h.text] at hstops
    exact .lexeme hlexeme.isIndent_eq_false (hlexeme.head?_ne hstops)
      (hlexeme.recognise hstops) h.cut
  · obtain ⟨d, hd, hreturn⟩ := hlexeme.exists_getLast?
    have hlast := h.last
    rw [getLast?_append]
    cases he : chars.getLast? <;> simp_all
  · rw [mem_append, not_or]
    exact ⟨hone, h.oneLine⟩
  · intro context column
    rw [LineContext.tokens, map_cons, h.tokens, map_cons, Token.written, Token.written, hchars]
    rfl
  · rintro _ ⟨⟩
    exact hlexeme.isIndent_eq_false

private theorem exists_writes (hline : ∀ t ∈ line, t.IsLexical) :
    ∃ ps, Writes (line.flatMap fun t => ' ' :: t.lexeme.toList) line ps ∧
      Stops (line.flatMap fun t => ' ' :: t.lexeme.toList) := by
  induction line with
  | nil => exact ⟨[], ⟨rfl, rfl, .nil, nofun, nofun, fun _ _ => rfl⟩, nofun⟩
  | cons t line ih =>
    obtain ⟨ht, hline⟩ := forall_mem_cons.mp hline
    obtain ⟨ps, hps, hstops⟩ := ih hline
    obtain ⟨ps', hps', -⟩ := hps.exists_cons hstops ht
    refine ⟨_, hps'.blank, ?_⟩
    rintro _ ⟨⟩
    rfl

private theorem logicalLines_append (hline : ∀ t ∈ line, t.isNewline = false)
    (hnewline : newline.isNewline) :
    logicalLines (line ++ newline :: rest) = line :: logicalLines rest := by
  rw [logicalLines, splitOnP_append_cons_of_forall_mem hline newline hnewline,
    dropLast_cons_of_ne_nil (splitOnP_ne_nil _ _), logicalLines]

end Lines

/-- Whether tokens say the same, in lines that are indented alike. -/
structure Alike (tokens tokens' : List Token) : Prop where
  written : tokens'.map Token.written = tokens.map Token.written
  indents : (logicalLines tokens').map lineIndent = (logicalLines tokens).map lineIndent

/-- Lines that tokens are written with, so that they are found again. -/
structure Rewrites (path : String) (tokens : List Token) (lines : List (List Piece)) : Prop where
  text : lines.map text = (logicalLines tokens).map respacedLine
  oneLine : ∀ chars ∈ lines.map Piece.text, '\n' ∉ chars ∧ chars.getLast? ≠ some '\r'
  cut : ∀ mark, IsSpaced mark → CutLines 0 mark lines
  alike : ∀ number, Alike tokens (tokensOf path number 0 lines)

section Rewriting

variable {path : String} {lines : List (List Piece)} {line rest : List Token} {t newline : Token}

/-- A logical line can be written before others. -/
theorem exists_rewrites (hline : ∀ t' ∈ t :: line, t'.IsLexical)
    (hnewline : newline.written = (.newline, ""))
    (htext : lines.map text = (logicalLines rest).map respacedLine)
    (hone : ∀ chars ∈ lines.map text, '\n' ∉ chars ∧ chars.getLast? ≠ some '\r')
    (hcut : ∀ mark, IsSpaced mark → CutLines 0 mark lines)
    (hmore : ∀ (context : LineContext) number, ∃ newline' rest',
      (if bracketsAfterAll ((t :: line).map Token.kind) 0 == 0 then [context.ending] else []) ++
        tokensOf path number (bracketsAfterAll ((t :: line).map Token.kind) 0) lines =
        newline' :: rest' ∧
      newline'.written = (.newline, "") ∧ Alike rest rest') :
    ∃ lines, Rewrites path (t :: line ++ newline :: rest) lines := by
  obtain ⟨ht, hrest⟩ := forall_mem_cons.mp hline
  obtain ⟨ps, hps, hstops⟩ := exists_writes hrest
  obtain ⟨ps, hps, hfirst⟩ := hps.exists_cons hstops ht
  have hplain : ∀ t' ∈ t :: line, t'.isNewline = false := by
    rintro t' ht'
    obtain ⟨c, cs, hlexeme, -⟩ := hline t' ht'
    exact beq_eq_false_iff_ne.mpr hlexeme.ne_end.1
  have hends {mark : Token} (hmark : mark.written = (.newline, "")) : mark.isNewline :=
    beq_iff_eq.mpr (congrArg Prod.fst hmark)
  have hps' := hps.indented t.indent
  refine ⟨indented t.indent ps :: lines, ?_, ?_, fun mark => .indented hps.cut hfirst hcut,
    fun number => ?_⟩
  · rw [logicalLines_append hplain (hends hnewline), map_cons, map_cons, htext, hps'.text]
    rfl
  · rw [map_cons, forall_mem_cons, hps'.text]
    exact ⟨⟨hps'.oneLine, hps'.last⟩, hone⟩
  · let context := LineContext.ofLine path number (text (indented t.indent ps))
    obtain ⟨newline', rest', hrest', hnewline', halike⟩ := hmore context (number + 1)
    have htoks : tokensOf path number 0 (indented t.indent ps :: lines) =
        context.tokens 1 (indented t.indent ps) ++ newline' :: rest' := by
      rw [tokensOf, hps'.kinds, ← hrest', append_assoc]
      rfl
    have hplain' : ∀ t' ∈ context.tokens 1 (indented t.indent ps), t'.isNewline = false :=
      fun t' ht' => (hps'.cut.ne_break_of_mem ht').1
    have hind : lineIndent (context.tokens 1 (indented t.indent ps)) = lineIndent (t :: line) := by
      have hleading : context.leading.length = t.indent :=
        (congrArg length (takeWhile_text_indented hfirst)).trans length_replicate
      have hmarks := congrArg (fun marks => marks.head?.map Prod.snd)
        (context.mark_tokens 1 (indented t.indent ps))
      rw [hps'.kinds, hleading] at hmarks
      simpa [Token.mark, lineIndent, Function.comp_def] using hmarks
    rw [htoks]
    refine ⟨?_, ?_⟩
    · simp only [map_append, map_cons, hps'.tokens, hnewline, hnewline', halike.written]
    · rw [logicalLines_append hplain (hends hnewline),
        logicalLines_append hplain' (hends hnewline'), map_cons, map_cons, hind, halike.indents]

private theorem CutLines.exists_rewrites {depth : Nat} {mark : Option Char} (path' : String)
    (h : CutLines depth mark lines) (hone : ∀ ps ∈ lines, '\n' ∉ text ps) (number : Nat)
    {brackets : Nat} (front : List Token) (hfront : ∀ t ∈ front, t.IsLexical)
    (hbrackets : bracketsAfterAll (front.map Token.kind) 0 = brackets)
    (hclosed : brackets = 0 → front = []) :
    ∃ lines', Rewrites path' (front ++ tokensOf path number brackets lines) lines' := by
  induction h generalizing number brackets front with
  | nil =>
    by_cases hzero : brackets = 0
    · rw [hclosed hzero, hzero]
      exact ⟨[], rfl, forall_mem_nil _, fun _ _ => .nil, fun _ => ⟨rfl, rfl⟩⟩
    · cases front with
      | nil => exact absurd hbrackets.symm hzero
      | cons t line =>
        rw [tokensOf, if_neg hzero]
        refine BlockScript.exists_rewrites hfront rfl map_nil (forall_mem_nil _)
          (fun _ _ => .nil) fun _ number => ?_
        rw [hbrackets, if_neg (by simpa using hzero), tokensOf, if_neg hzero]
        exact ⟨_, _, rfl, rfl, rfl, rfl⟩
  | @cons depth depth' mark mark' ps lines hcut _ hlines ih =>
    obtain ⟨hfirst, hrest⟩ := forall_mem_cons.mp hone
    generalize hcontext : LineContext.ofLine path number (text ps) = context
    have hkinds : (context.tokens 1 ps).map Token.kind = kinds ps := by
      simpa [Token.mark, Function.comp_def] using congrArg (map Prod.fst) (context.mark_tokens 1 ps)
    have hlexical : ∀ t ∈ front ++ context.tokens 1 ps, t.IsLexical := by
      refine forall_mem_append.mpr ⟨hfront, fun t ht => ?_⟩
      obtain ⟨before, kind, c, cs, after, rfl, rfl⟩ := context.exists_of_mem_tokens ht
      exact ⟨c, cs, hcut.isLexeme_of_mem mem_append_cons_self,
        rfl, fun hmem => hfirst (by simp_all [text, chars])⟩
    have hafter : bracketsAfterAll ((front ++ context.tokens 1 ps).map Token.kind) 0 =
        bracketsAfterAll (kinds ps) brackets := by
      rw [map_append, Spelling.bracketsAfterAll_append, hbrackets, hkinds]
    rw [tokensOf, hcontext, ← append_assoc, ← append_assoc]
    split
    -- The logical line ends here, or it goes on after this line.
    · rename_i hend
      obtain ⟨hsome, hzero⟩ := (Bool.and_eq_true _ _).mp hend
      rw [beq_iff_eq] at hzero
      obtain ⟨lines', hlines'⟩ := ih hrest (number + 1) [] (forall_mem_nil _) rfl fun _ => rfl
      cases hfront' : front ++ context.tokens 1 ps with
      | nil =>
        rw [← hkinds, (append_eq_nil_iff.mp hfront').2] at hsome
        cases hsome
      | cons t line =>
        rw [hfront'] at hlexical hafter
        rw [append_assoc, singleton_append, hzero]
        refine BlockScript.exists_rewrites hlexical rfl hlines'.text hlines'.oneLine
          hlines'.cut fun _ number => ?_
        rw [hafter, hzero]
        exact ⟨_, _, rfl, rfl, hlines'.alike number⟩
    · rename_i hend
      rw [append_nil]
      refine ih hrest (number + 1) _ hlexical hafter fun hzero => ?_
      have hnone : kinds ps = [] := by simpa [hzero] using hend
      rw [hnone, map_eq_nil_iff] at hkinds
      rw [hkinds, hclosed (by rwa [hnone] at hzero), append_nil]

end Rewriting

/-- Scanning does not depend on spaces. The tokens of a source that is scanned without a fault can
be written with even spaces, and scanning them again finds the same tokens, in lines that are
indented alike. -/
theorem scan_respaced (path path' : String) {source : Source}
    (hfault : (scan path source).fault = none) :
    let tokens := (scan path source).tokens
    let again := scan path' (Source.ofText (respaced tokens))
    again.fault = none ∧ again.tokens.map Token.written = tokens.map Token.written ∧
      (logicalLines again.tokens).map lineIndent = (logicalLines tokens).map lineIndent := by
  obtain ⟨lines, hsrc, hlines, hscan⟩ := exists_cutLines_of_scan hfault
  have hone : ∀ ps ∈ lines, '\n' ∉ text ps := by
    intro ps hps
    have hmem : some (text ps) ∈ source.map SourceLine.chars? := hsrc ▸ mem_map_of_mem hps
    obtain ⟨line, _, hline⟩ := mem_map.mp hmem
    cases line with
    | unreadable fault => cases hline
    | text chars hchars =>
      cases hline
      exact hchars
  obtain ⟨lines', h⟩ : ∃ lines', Rewrites path' (tokensOf path 1 0 lines) lines' :=
    hlines.exists_rewrites path' hone 1 [] (forall_mem_nil _) rfl fun _ => rfl
  have hsrc' : (Source.ofText (respaced (tokensOf path 1 0 lines))).map SourceLine.chars? =
      lines'.map (some ∘ text) := by
    rw [respaced, ← h.text, Source.ofText_lines h.oneLine, map_map]
  have hagain : scan path' (Source.ofText (respaced (tokensOf path 1 0 lines))) = _ :=
    scanLines_of_cutLines (h.cut none (.inl rfl)) 1 {} rfl rfl hsrc'
  rw [hscan]
  dsimp only
  rw [hagain]
  exact ⟨rfl, (h.alike 1).written, (h.alike 1).indents⟩

/-- Brackets join two lines, and comments are left out. -/
theorem scan_respaced_joinedLines :
    let tokens := (scan "main.bot" (Source.ofText "  say(x,\n /* y */ z)==w // v")).tokens
    let again := scan "main.bot" (Source.ofText (respaced tokens))
    respaced tokens = "  say ( x , z ) == w\n" ∧ again.fault = none ∧
      again.tokens.map Token.written = tokens.map Token.written ∧
      (logicalLines again.tokens).map lineIndent = (logicalLines tokens).map lineIndent :=
  ⟨by decide +kernel, scan_respaced "main.bot" "main.bot" (by decide +kernel)⟩

end BlockScript
