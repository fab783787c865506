import BlockScript.Proofs.Pieces

/-!
# Spelling

What a line without comments is cut into, lexeme by lexeme. A spelling is a text with the kinds of
its tokens; it is cut into these whatever stands after it, as long as that begins with a character
that ends words, numbers and signs alike. Spellings are put together from smaller ones, each with
the reason why it is cut as it is. Lines that are spelled, each behind its indentation, are scanned
without a fault.
-/

namespace BlockScript

open List

variable {cs rest whole fraction : List Char} {kinds : List Token.Kind} {c d : Char}
  {p : Char → Bool}

/-- What the characters of a line, up to its end, are cut into. -/
inductive Lexes : List Char → List Token.Kind → Prop where
  | nil : Lexes [] []
  | blank {cs : List Char} {kinds : List Token.Kind} : Lexes cs kinds → Lexes (' ' :: cs) kinds
  | lexeme {c : Char} {rest : List Char} {kind : Token.Kind} {length : Nat}
      {kinds : List Token.Kind} :
      isIndent c = false → (c = '/' → rest.head? ≠ some '/' ∧ rest.head? ≠ some '*') →
      recognise c rest = .ok (kind, length) → Lexes (rest.drop (length - 1)) kinds →
      Lexes (c :: rest) (kind :: kinds)

private theorem Lexes.exists_cut (h : Lexes cs kinds) :
    ∃ ps, Piece.text ps = cs ∧ Piece.kinds ps = kinds ∧ Cut 0 ps 0 := by
  induction h with
  | nil => exact ⟨[], rfl, rfl, .nil⟩
  | blank _ ih =>
    obtain ⟨ps, rfl, rfl, hcut⟩ := ih
    exact ⟨.gap ' ' :: ps, rfl, rfl, .blank rfl hcut⟩
  | lexeme hind hslash hrec _ ih =>
    obtain ⟨ps, htext, rfl, hcut⟩ := ih
    exact Cut.exists_of_recognise hind hslash hrec htext hcut

/-! ### Lexemes -/

/-- Whether a character ends words, numbers and signs before it. -/
def isStop (c : Char) : Bool :=
  c == ' ' || c == '(' || c == ')' || c == '[' || c == ']' || c == ',' || c == ':'

/-- Whether what stands after a text ends its last lexeme. -/
def Stops (rest : List Char) : Prop := ∀ c ∈ rest.head?, isStop c

private theorem isStop_cases (h : isStop c) :
    c = ' ' ∨ c = '(' ∨ c = ')' ∨ c = '[' ∨ c = ']' ∨ c = ',' ∨ c = ':' := by
  simpa [isStop, or_assoc] using h

/-- Stops end names. -/
theorem isNamePart_of_isStop (h : isStop c) : isNamePart c = false := by
  rcases isStop_cases h with rfl | rfl | rfl | rfl | rfl | rfl | rfl <;> decide

private theorem isDigit_of_isStop (h : isStop c) : c.isDigit = false := by
  rcases isStop_cases h with rfl | rfl | rfl | rfl | rfl | rfl | rfl <;> decide

private theorem ne_of_isStop (h : isStop c) (hd : isStop d = false) : c ≠ d := by
  rintro rfl
  rw [h] at hd
  cases hd

private theorem Stops.head?_ne (h : Stops rest) (hd : isStop d = false) :
    rest.head? ≠ some d := fun hhead => ne_of_isStop (h d hhead) hd rfl

private theorem isNameStart_of_isDigit (h : c.isDigit) : isNameStart c = false := by
  have hrange : 48 ≤ c.toNat ∧ c.toNat ≤ 57 := by
    rw [Char.isDigit, Bool.and_eq_true, decide_eq_true_eq, decide_eq_true_eq] at h
    exact ⟨UInt32.le_iff_toNat_le.mp h.1, UInt32.le_iff_toNat_le.mp h.2⟩
  have halpha : c.isAlpha = false := by
    rw [Bool.eq_false_iff]
    intro hletter
    rcases Bool.or_eq_true_iff.mp hletter with hupper | hlower
    · have hlow : 65 ≤ c.toNat := UInt32.le_iff_toNat_le.mp (of_decide_eq_true hupper).1
      omega
    · have hlow : 97 ≤ c.toNat :=
        UInt32.le_iff_toNat_le.mp (of_decide_eq_true (Bool.and_eq_true_iff.mp hlower).1)
      omega
  have hunder : (c == '_') = false := by
    rw [beq_eq_false_iff_ne]
    rintro rfl
    revert h
    decide
  rw [isNameStart, Text.isAlphabetic, if_pos (by omega), halpha, hunder]
  rfl

private theorem isNamePart_of_isNameStart (h : isNameStart c) : isNamePart c := by
  simp only [isNameStart, isNamePart, Text.isAlphanumeric, Bool.or_eq_true] at h ⊢
  rcases h with h | h
  · exact .inl (.inl h)
  · exact .inr h

private theorem ne_of_isNamePart (h : isNamePart c) (hd : isNamePart d = false) : c ≠ d := by
  rintro rfl
  rw [h] at hd
  cases hd

private theorem takeWhile_append_of_head? (hcs : ∀ c ∈ cs, p c)
    (hrest : ∀ c ∈ rest.head?, p c = false) : (cs ++ rest).takeWhile p = cs := by
  rw [takeWhile_append_of_pos hcs]
  have hnone : rest.takeWhile p = [] := by
    cases rest with
    | nil => rfl
    | cons c rest => simp [hrest c rfl]
  rw [hnone, append_nil]

/-! ### Lines -/

section Lines

variable {ps : List Piece} {mark : Option Char} {lines : List (List Piece)} {indent : Nat}

/-- Whether a file is indented with spaces, if at all. -/
def IsSpaced (mark : Option Char) : Prop := mark = none ∨ mark = some ' '

private theorem LineContext.checkIndent_replicate (hmark : IsSpaced mark) (column indent : Nat) :
    ∃ mark', checkIndent mark column (List.replicate indent ' ') = .ok mark' ∧ IsSpaced mark' := by
  induction indent generalizing mark column with
  | zero => exact ⟨mark, rfl, hmark⟩
  | succ indent ih =>
    have hfirst : mark.getD ' ' = ' ' := by rcases hmark with rfl | rfl <;> rfl
    rw [replicate_succ, checkIndent, if_pos hfirst]
    exact ih (.inr rfl) (column + 1)

/-- Pieces behind spaces. -/
def indented (indent : Nat) (ps : List Piece) :
    List Piece := (List.replicate indent ' ').map .gap ++ ps

private theorem text_indented (indent : Nat) (ps : List Piece) :
    Piece.text (indented indent ps) = List.replicate indent ' ' ++ Piece.text ps := by
  rw [indented, Piece.text, flatMap_append]
  exact congrArg (· ++ _) (Piece.text_gaps _)

private theorem kinds_indented (indent : Nat) (ps : List Piece) :
    Piece.kinds (indented indent ps) = Piece.kinds ps := by
  rw [indented, Piece.kinds, filterMap_append]
  exact congrArg (· ++ _) (Piece.kinds_gaps _)

private theorem Cut.indented (h : Cut 0 ps 0) (indent : Nat) : Cut 0 (indented indent ps) 0 := by
  induction indent with
  | zero => exact h
  | succ indent ih => exact .blank rfl ih

/-- The indentation of a line. -/
theorem takeWhile_text_indented (hfirst : ∀ c ∈ (Piece.text ps).head?, isIndent c = false) :
    (Piece.text (indented indent ps)).takeWhile isIndent = List.replicate indent ' ' := by
  rw [text_indented]
  exact takeWhile_append_of_head? (fun c hc => by rw [eq_of_mem_replicate hc]; rfl) hfirst

/-- A line behind spaces can be cut before others. -/
theorem CutLines.indented (hcut : Cut 0 ps 0)
    (hfirst : ∀ c ∈ (Piece.text ps).head?, isIndent c = false)
    (hlines : ∀ mark, IsSpaced mark → CutLines 0 mark lines) (hmark : IsSpaced mark) :
    CutLines 0 mark (indented indent ps :: lines) := by
  obtain ⟨mark', hcheck, hmark'⟩ := LineContext.checkIndent_replicate hmark 1 indent
  refine .cons (hcut.indented indent) (fun _ => by rw [takeWhile_text_indented hfirst, hcheck])
    (hlines _ ?_)
  split
  · exact hmark
  · exact hmark'

end Lines

section Lexemes

variable {c : Char} {cs rest : List Char} {more : List Token.Kind} {kind : Token.Kind}

/-- The characters that signs begin with. -/
def signStarts : List Char :=
  ['(', ')', '[', ']', ',', '.', ':', '@', '+', '-', '*', '/', '%', '<', '>', '=', '!', '&', '|']

private theorem signs_eq_none (hp : signStarts.any p = false) (hc : p c) :
    Sign.single? c = none ∧ Sign.paired? c = none ∧ Keyword.doubled? c = none := by
  have hne : c ∉ signStarts := fun hmem => by
    rw [any_eq_true.mpr ⟨c, hmem, hc⟩] at hp
    cases hp
  refine ⟨?_, ?_, ?_⟩
  · unfold Sign.single?
    split <;> first | rfl | exact absurd (by decide) hne
  · unfold Sign.paired?
    split <;> first | rfl | exact absurd (by decide) hne
  · unfold Keyword.doubled?
    split <;> first | rfl | exact absurd (by decide) hne

private theorem recognise_word (hstart : isNameStart c) (hparts : ∀ d ∈ cs, isNamePart d)
    (hrest : ∀ d ∈ rest.head?, isNamePart d = false) :
    recognise c (cs ++ rest) = .ok (.ofWord (String.ofList (c :: cs)), cs.length + 1) := by
  have hpart := isNamePart_of_isNameStart hstart
  have hne {d : Char} (hd : isNamePart d = false) : c ≠ d := ne_of_isNamePart hpart hd
  have hdigit : c.isDigit = false := by
    cases hcase : c.isDigit with
    | false => rfl
    | true =>
      rw [isNameStart_of_isDigit hcase] at hstart
      cases hstart
  obtain ⟨hsingle, hpaired, hdoubled⟩ := signs_eq_none (by decide) hpart
  rw [recognise, hsingle, hpaired, hdoubled]
  simp [hne (d := '#') (by decide), hne (d := '"') (by decide), hdigit, hstart,
    takeWhile_append_of_head? hparts hrest]

private theorem Lexes.word (hstart : isNameStart c) (hparts : ∀ d ∈ cs, isNamePart d)
    (hrest : ∀ d ∈ rest.head?, isNamePart d = false) (hmore : Lexes rest more) :
    Lexes (c :: cs ++ rest) (.ofWord (String.ofList (c :: cs)) :: more) := by
  have hpart := isNamePart_of_isNameStart hstart
  have hind : isIndent c = false := by
    simp [isIndent, ne_of_isNamePart hpart (d := ' ') (by decide),
      ne_of_isNamePart hpart (d := '\t') (by decide)]
  refine .lexeme hind (fun h => absurd h (ne_of_isNamePart hpart (by decide)))
    (recognise_word hstart hparts hrest) ?_
  simpa using hmore

/-- A sign of one character is read whatever follows. -/
theorem Lexes.single {sign : Sign} (hsign : Sign.single? c = some sign) (hmore : Lexes rest more) :
    Lexes (c :: rest) (.sign sign :: more) := by
  have hind : isIndent c = false := by
    unfold Sign.single? at hsign
    split at hsign <;> first | rfl | cases hsign
  have hslash : c ≠ '/' := by
    rintro rfl
    cases hsign
  have hrec : recognise c rest = .ok (.sign sign, 1) := by rw [recognise, hsign]
  exact .lexeme hind (fun h => absurd h hslash) hrec hmore

private theorem not_single_of_paired {alone withEq : Token.Kind}
    (hsign : Sign.paired? c = some (alone, withEq)) :
    isIndent c = false ∧ Sign.single? c = none := by
  unfold Sign.paired? at hsign
  split at hsign <;> first | exact ⟨rfl, rfl⟩ | cases hsign

/-- A sign that an equals sign may follow, alone. -/
theorem Lexes.alone {alone withEq : Token.Kind} (hsign : Sign.paired? c = some (alone, withEq))
    (heq : rest.head? ≠ some '=') (hline : rest.head? ≠ some '/') (hblock : rest.head? ≠ some '*')
    (hmore : Lexes rest more) : Lexes (c :: rest) (alone :: more) := by
  have hother := not_single_of_paired hsign
  have hrec : recognise c rest = .ok (alone, 1) := by
    rw [recognise, hother.2, hsign]
    simp [heq]
  exact .lexeme hother.1 (fun _ => ⟨hline, hblock⟩) hrec hmore

private theorem Lexes.withEq {alone withEq : Token.Kind}
    (hsign : Sign.paired? c = some (alone, withEq)) (hmore : Lexes rest more) :
    Lexes (c :: '=' :: rest) (withEq :: more) := by
  have hother := not_single_of_paired hsign
  have hrec : recognise c ('=' :: rest) = .ok (withEq, 2) := by
    rw [recognise, hother.2, hsign]
    simp
  exact .lexeme hother.1 (fun _ => ⟨by simp, by simp⟩) hrec hmore

private theorem recogniseNumber_decimal (hwhole : ∀ d ∈ whole, d.isDigit)
    (hfrac : ∀ d ∈ fraction, d.isDigit) (hrest : Stops rest) :
    recogniseNumber (decimalChars whole fraction ++ rest) =
      (.literal (.number (decimalValue whole fraction)), (decimalChars whole fraction).length) := by
  have hstop : ∀ d ∈ rest.head?, d.isDigit = false := fun d hd => isDigit_of_isStop (hrest d hd)
  cases fraction with
  | nil =>
    have htake : (whole ++ rest).takeWhile Char.isDigit = whole :=
      takeWhile_append_of_head? hwhole hstop
    simp only [decimalChars, List.isEmpty_nil, if_true, recogniseNumber, htake, List.drop_left]
    split
    · exact absurd (hrest '.' rfl) (by decide)
    · simp [decimalValue]
  | cons d fraction =>
    have hpoint : ∀ e ∈ ('.' :: (d :: fraction ++ rest)).head?, e.isDigit = false := by
      intro e he
      cases he
      rfl
    have htake : (whole ++ '.' :: (d :: fraction ++ rest)).takeWhile Char.isDigit = whole :=
      takeWhile_append_of_head? hwhole hpoint
    have htake' : (d :: fraction ++ rest).takeWhile Char.isDigit = d :: fraction :=
      takeWhile_append_of_head? hfrac hstop
    have hchars : decimalChars whole (d :: fraction) ++ rest =
        whole ++ '.' :: (d :: fraction ++ rest) := by simp [decimalChars]
    rw [hchars, recogniseNumber, htake]
    simp only [List.drop_left, htake']
    simp [decimalValue, decimalChars]

private theorem recognise_number (hc : c.isDigit) (rest : List Char) :
    recognise c rest = .ok (recogniseNumber (c :: rest)) := by
  have hne {d : Char} (hd : d.isDigit = false) : c ≠ d := by
    rintro rfl
    rw [hc] at hd
    cases hd
  obtain ⟨hsingle, hpaired, hdoubled⟩ := signs_eq_none (by decide) hc
  rw [recognise, hsingle, hpaired, hdoubled]
  simp [hne (d := '#') (by decide), hne (d := '"') (by decide), hc]

/-- A lexeme is recognised before everything that ends it. -/
theorem IsLexeme.recognise (h : IsLexeme c kind cs) (hrest : Stops rest) :
    recognise c (cs ++ rest) = .ok (kind, cs.length + 1) := by
  have hname :
    ∀ d ∈ rest.head?, isNamePart d = false := fun d hd => isNamePart_of_isStop (hrest d hd)
  cases h with
  | single hsingle => rw [nil_append, BlockScript.recognise, hsingle]; rfl
  | alone hpaired =>
    rw [nil_append, BlockScript.recognise, (not_single_of_paired hpaired).2, hpaired]
    simp [hrest.head?_ne (d := '=') rfl]
  | withEq hpaired => rw [BlockScript.recognise, (not_single_of_paired hpaired).2, hpaired]; simp
  | doubled hdoubled =>
    unfold Keyword.doubled? at hdoubled
    split at hdoubled <;> cases hdoubled <;> rfl
  | directive hne hparts =>
    change recogniseDirective (cs ++ rest) = _
    simp [recogniseDirective, takeWhile_append_of_head? hparts hname, hne]
  | @text body hbody =>
    have htake : (body ++ '"' :: rest).takeWhile (· != '"') = body :=
      takeWhile_append_of_head? (fun d hd => by simpa using hbody d hd) fun d hd => by cases hd; rfl
    rw [append_assoc, singleton_append]
    change recogniseText (body ++ '"' :: rest) = _
    simp [recogniseText, htake]
  | number hwhole hfrac hchars =>
    rw [recognise_number (hwhole c mem_cons_self), ← cons_append, ← hchars,
      recogniseNumber_decimal hwhole hfrac hrest, hchars]
    rfl
  | word hstart hparts => exact recognise_word hstart hparts hname

/-- Lexemes are not indentation. -/
theorem IsLexeme.isIndent_eq_false (h : IsLexeme c kind cs) : isIndent c = false := by
  have hrec : BlockScript.recognise c (cs ++ []) = _ := h.recognise nofun
  cases hind : isIndent c with
  | false => rfl
  | true =>
    rcases (by simpa [isIndent] using hind : c = ' ' ∨ c = '\t') with rfl | rfl
    · cases hrec.symm.trans (show _ = Except.error (.unexpectedCharacter ' ', 1) from rfl)
    · cases hrec.symm.trans (show _ = Except.error (.unexpectedCharacter '\t', 1) from rfl)

private theorem mem_decimalChars (hwhole : ∀ d ∈ whole, d.isDigit)
    (hfrac : ∀ d ∈ fraction, d.isDigit) (hc : c ∈ decimalChars whole fraction) :
    c.isDigit ∨ c = '.' := by
  unfold decimalChars at hc
  split at hc
  · exact .inl (hwhole c hc)
  · rcases mem_append.mp hc with hc | hc
    · exact .inl (hwhole c hc)
    · rcases mem_cons.mp hc with hc | hc
      · exact .inr hc
      · exact .inl (hfrac c hc)

/-- No lexeme ends with a return. -/
theorem IsLexeme.exists_getLast? (h : IsLexeme c kind cs) : ∃ d ∈ (c :: cs).getLast?, d ≠ '\r' := by
  obtain ⟨d, hlast⟩ : ∃ d, (c :: cs).getLast? = some d :=
    ⟨_, getLast?_eq_some_getLast (cons_ne_nil c cs)⟩
  refine ⟨d, hlast, fun hd => ?_⟩
  subst hd
  have hmem := mem_of_getLast? hlast
  cases h with
  | single hsign | alone hsign =>
    cases mem_singleton.mp hmem
    cases hsign
  | doubled hsign =>
    obtain rfl : '\r' = c := by simpa using hmem
    cases hsign
  | withEq => simp at hlast
  | directive _ hparts =>
    rcases mem_cons.mp hmem with h | h
    · cases h
    · exact absurd (hparts _ h) (by decide)
  | text =>
    rw [← cons_append, getLast?_concat] at hlast
    cases hlast
  | number hwhole hfrac hchars =>
    rw [← hchars] at hmem
    rcases mem_decimalChars hwhole hfrac hmem with h | h <;> revert h <;> decide
  | word hstart hparts =>
    rcases mem_cons.mp hmem with rfl | h
    · exact absurd hstart (by decide)
    · exact absurd (hparts _ h) (by decide)

/-- A lexeme is no comment. -/
theorem IsLexeme.head?_ne (h : IsLexeme c kind cs) (hrest : Stops rest) (hc : c = '/') :
    (cs ++ rest).head? ≠ some '/' ∧ (cs ++ rest).head? ≠ some '*' := by
  subst hc
  cases h with
  | single hsign | doubled hsign => cases hsign
  | alone => exact ⟨hrest.head?_ne rfl, hrest.head?_ne rfl⟩
  | withEq => exact ⟨by simp, by simp⟩
  | number hwhole => exact absurd (hwhole _ mem_cons_self) (by decide)
  | word hstart => exact absurd hstart (by decide)

private theorem Lexes.of_isLexeme (h : IsLexeme c kind cs) (hrest : Stops rest)
    (hmore : Lexes rest more) : Lexes (c :: cs ++ rest) (kind :: more) := by
  refine .lexeme h.isIndent_eq_false (h.head?_ne hrest) (h.recognise hrest) ?_
  simpa using hmore

end Lexemes

/-! ### Spellings -/

/-- A text with the kinds of the tokens that it is cut into, whatever stands after it. -/
structure Spelling where
  /-- The characters. -/
  chars : List Char
  /-- The kinds of its tokens. -/
  kinds : List Token.Kind
  lexes : ∀ {rest : List Char} {more : List Token.Kind}, Stops rest → Lexes rest more →
    Lexes (chars ++ rest) (kinds ++ more)
  /-- Every bracket that is opened is closed. -/
  balanced : ∀ depth, bracketsAfterAll kinds depth = depth
  kinds_ne_nil : kinds ≠ []
  /-- The text stands on one line, does not begin with a blank and does not end with a return. -/
  first : ∃ c ∈ chars.head?, isIndent c = false
  last : ∃ c ∈ chars.getLast?, c ≠ '\r'
  oneLine : '\n' ∉ chars

private theorem Spelling.lexes_alone (s : Spelling) : Lexes s.chars s.kinds := by
  have hstop : Stops [] := fun _ h => by cases h
  simpa using s.lexes hstop .nil

/-- Whether a text is a word: a letter, and what names go on with. -/
def isWord (text : String) : Bool :=
  match text.toList with
  | [] => false
  | c :: cs => isNameStart c && cs.all isNamePart

private theorem isWord_iff {text : String} :
    isWord text ↔ ∃ c cs, text.toList = c :: cs ∧ isNameStart c ∧ ∀ d ∈ cs, isNamePart d := by
  unfold isWord
  cases text.toList with
  | nil => simp
  | cons c cs =>
    simp only [Bool.and_eq_true, all_eq_true]
    constructor
    · exact fun h => ⟨c, cs, rfl, h⟩
    · rintro ⟨_, _, ⟨⟩, h⟩
      exact h

/-- A word is a lexeme. -/
theorem Lexes.ofWord {text : String} (hword : isWord text) {more : List Token.Kind}
    (hrest : ∀ d ∈ rest.head?, isNamePart d = false) (hmore : Lexes rest more) :
    Lexes (text.toList ++ rest) (.ofWord text :: more) := by
  obtain ⟨c, cs, hchars, hstart, hparts⟩ := isWord_iff.mp hword
  have htext : String.ofList (c :: cs) = text := by rw [← hchars, String.ofList_toList]
  rw [hchars, ← htext]
  exact .word hstart hparts hrest hmore

private theorem isNamePart_of_mem_word {text : String} (hword : isWord text)
    (hc : c ∈ text.toList) : isNamePart c := by
  obtain ⟨first, rest, hchars, hstart, hparts⟩ := isWord_iff.mp hword
  rw [hchars, mem_cons] at hc
  rcases hc with rfl | hc
  · exact isNamePart_of_isNameStart hstart
  · exact hparts c hc

namespace Spelling

/-- Brackets are counted in order. -/
theorem bracketsAfterAll_append (kinds more : List Token.Kind) (depth : Nat) :
    bracketsAfterAll (kinds ++ more) depth = bracketsAfterAll more (bracketsAfterAll kinds depth) :=
  foldl_append

private theorem chars_ne_nil (s : Spelling) : s.chars ≠ [] := by
  intro h
  obtain ⟨c, hc, -⟩ := s.first
  rw [h] at hc
  cases hc

/-- A spelling comes first. -/
theorem head?_append (s : Spelling) (more : List Char) :
    (s.chars ++ more).head? = s.chars.head? := by
  obtain ⟨c, hc, -⟩ := s.first
  rw [List.head?_append, hc]
  rfl

/-- A spelling comes last. -/
theorem getLast?_append (before : List Char) (s : Spelling) :
    (before ++ s.chars).getLast? = s.chars.getLast? := by
  obtain ⟨c, hc, -⟩ := s.last
  rw [List.getLast?_append, hc]
  rfl

private theorem ofWord_ne_sign (word : String) (sign : Sign) :
    Token.Kind.ofWord word ≠ .sign sign := by
  unfold Token.Kind.ofWord
  split
  · simp
  · split
    · simp
    · split <;> simp

/-- A word that is read as a kind of token. -/
def word (text : String) (kind : Token.Kind) (hword : isWord text) (hkind : .ofWord text = kind) :
    Spelling where
  chars := text.toList
  kinds := [kind]
  lexes {rest more} hrest hmore := by
    rw [← hkind]
    exact .ofWord hword (fun d hd => isNamePart_of_isStop (hrest d hd)) hmore
  balanced depth := by
    have hne := ofWord_ne_sign text
    rw [hkind] at hne
    simp only [bracketsAfterAll, foldl_cons, foldl_nil]
    unfold bracketsAfter
    split
    all_goals first | rfl | exact absurd rfl (hne _)
  kinds_ne_nil := by simp
  first := by
    obtain ⟨c, cs, hchars, hstart, hparts⟩ := isWord_iff.mp hword
    exact ⟨c, by rw [hchars]; rfl, (IsLexeme.word hstart hparts).isIndent_eq_false⟩
  last := by
    obtain ⟨c, cs, hchars, hstart, hparts⟩ := isWord_iff.mp hword
    rw [hchars]
    exact (IsLexeme.word hstart hparts).exists_getLast?
  oneLine hmem := absurd rfl (ne_of_isNamePart (isNamePart_of_mem_word hword hmem) (by decide))

/-- A text between quotes. -/
def quoted (text : String) (htext : ∀ c ∈ text.toList, c ≠ '"' ∧ c ≠ '\n') : Spelling where
  chars := '"' :: text.toList ++ ['"']
  kinds := [.literal (.string text)]
  lexes {rest more} hrest hmore := by
    have hlexes := Lexes.of_isLexeme (.text fun d hd => (htext d hd).1) hrest hmore
    rwa [String.ofList_toList] at hlexes
  balanced _ := rfl
  kinds_ne_nil := by simp
  first := ⟨'"', rfl, rfl⟩
  last := ⟨'"', getLast?_concat, by decide⟩
  oneLine hmem := by
    have hmem : '\n' ∈ text.toList := by simpa using hmem
    exact (htext _ hmem).2 rfl

private theorem exists_isLexeme_decimal (hne : whole ≠ []) (hwhole : ∀ d ∈ whole, d.isDigit)
    (hfrac : ∀ d ∈ fraction, d.isDigit) : ∃ c cs, decimalChars whole fraction = c :: cs ∧
      IsLexeme c (.literal (.number (decimalValue whole fraction))) cs := by
  obtain ⟨c, whole, rfl⟩ := exists_cons_of_ne_nil hne
  unfold decimalChars
  split
  · rename_i hnil
    exact ⟨c, _, rfl, .number hwhole hfrac (by rw [decimalChars, if_pos hnil])⟩
  · rename_i hnil
    exact ⟨c, _, rfl, .number hwhole hfrac (by rw [decimalChars, if_neg hnil]; rfl)⟩

/-- A number with its whole part and its fraction. -/
def decimal (whole fraction : List Char) (hne : whole ≠ []) (hwhole : ∀ d ∈ whole, d.isDigit)
    (hfrac : ∀ d ∈ fraction, d.isDigit) : Spelling where
  chars := decimalChars whole fraction
  kinds := [.literal (.number (decimalValue whole fraction))]
  lexes hrest hmore := by
    obtain ⟨c, cs, hchars, hlexeme⟩ := exists_isLexeme_decimal hne hwhole hfrac
    rw [hchars]
    exact .of_isLexeme hlexeme hrest hmore
  balanced _ := rfl
  kinds_ne_nil := by simp
  first := by
    obtain ⟨c, cs, hchars, hlexeme⟩ := exists_isLexeme_decimal hne hwhole hfrac
    exact ⟨c, by rw [hchars]; rfl, hlexeme.isIndent_eq_false⟩
  last := by
    obtain ⟨c, cs, hchars, hlexeme⟩ := exists_isLexeme_decimal hne hwhole hfrac
    rw [hchars]
    exact hlexeme.exists_getLast?
  oneLine hmem := by
    rcases mem_decimalChars hwhole hfrac hmem with h | h <;> revert h <;> decide

/-- Two spellings with a gap between them. -/
def joined (a : Spelling) (gap : List Char) (between : List Token.Kind) (b : Spelling)
    (hlexes : ∀ {rest more}, Lexes rest more → Lexes (gap ++ rest) (between ++ more))
    (hstops : Stops (gap ++ b.chars)) (hbalanced : ∀ depth, bracketsAfterAll between depth = depth)
    (hline : '\n' ∉ gap) : Spelling where
  chars := a.chars ++ (gap ++ b.chars)
  kinds := a.kinds ++ (between ++ b.kinds)
  lexes {rest more} hrest hmore := by
    have hstops' : Stops (gap ++ (b.chars ++ rest)) := by
      intro c hc
      rw [← append_assoc, List.head?_append] at hc
      cases hhead : (gap ++ b.chars).head? with
      | none => exact absurd (head?_eq_none_iff.mp hhead) (by simp [b.chars_ne_nil])
      | some d =>
        rw [hhead] at hc
        exact hstops c (hhead.trans hc)
    have h := a.lexes hstops' (hlexes (b.lexes hrest hmore))
    simpa using h
  balanced depth := by
    rw [bracketsAfterAll_append, bracketsAfterAll_append, a.balanced, hbalanced, b.balanced]
  kinds_ne_nil := by simp [a.kinds_ne_nil]
  first := by
    rw [a.head?_append]
    exact a.first
  last := by
    rw [← append_assoc, getLast?_append]
    exact b.last
  oneLine hmem := by
    rcases mem_append.mp hmem with h | h
    · exact a.oneLine h
    · rcases mem_append.mp h with h | h
      · exact hline h
      · exact b.oneLine h

/-- Two spellings with a space between them. -/
def spaced (a b : Spelling) : Spelling :=
  a.joined [' '] [] b (fun h => .blank h) (fun c hc => by cases hc; rfl) (fun _ => rfl) (by decide)

/-- Two spellings with a comma and a space between them. -/
def comma (a b : Spelling) : Spelling :=
  a.joined [',', ' '] [.sign .comma] b (fun h => .single rfl (.blank h))
    (fun c hc => by cases hc; rfl) (fun _ => rfl) (by decide)

/-- Two spellings next to each other, of which the second begins with a bracket or a colon. -/
def beside (a b : Spelling) (hstops : Stops b.chars) : Spelling :=
  a.joined [] [] b (fun h => h) hstops (fun _ => rfl) (by simp)

/-- A colon. -/
def colon : Spelling where
  chars := [':']
  kinds := [.sign .colon]
  lexes _ hmore := .single rfl hmore
  balanced _ := rfl
  kinds_ne_nil := by simp
  first := ⟨':', rfl, rfl⟩
  last := ⟨':', rfl, by decide⟩
  oneLine := by decide

/-- Two kinds of brackets. -/
inductive Bracket where
  | round
  | square

namespace Bracket

/-- The opening bracket. -/
def opening : Bracket → Char × Sign
  | .round => ('(', .leftParen)
  | .square => ('[', .leftBracket)

/-- The closing bracket. -/
def closing : Bracket → Char × Sign
  | .round => (')', .rightParen)
  | .square => (']', .rightBracket)

variable {more : List Token.Kind}

private theorem lexes_opening (b : Bracket) (h : Lexes rest more) :
    Lexes (b.opening.1 :: rest) (.sign b.opening.2 :: more) := by
  cases b <;> exact .single rfl h

private theorem lexes_closing (b : Bracket) (h : Lexes rest more) :
    Lexes (b.closing.1 :: rest) (.sign b.closing.2 :: more) := by
  cases b <;> exact .single rfl h

end Bracket

/-- A spelling in brackets. -/
def enclosed (b : Bracket) (a : Spelling) : Spelling where
  chars := b.opening.1 :: (a.chars ++ [b.closing.1])
  kinds := .sign b.opening.2 :: (a.kinds ++ [.sign b.closing.2])
  lexes {rest more} hrest hmore := by
    have hstops : Stops (b.closing.1 :: rest) := by
      intro c hc
      cases hc
      cases b <;> rfl
    have h := b.lexes_opening (a.lexes hstops (b.lexes_closing hmore))
    simpa using h
  balanced depth := by
    have hopen : bracketsAfter (.sign b.opening.2) depth = depth + 1 := by cases b <;> rfl
    have hclose : bracketsAfter (.sign b.closing.2) (depth + 1) = depth := by cases b <;> rfl
    have h : bracketsAfterAll (.sign b.opening.2 :: (a.kinds ++ [.sign b.closing.2])) depth =
        bracketsAfterAll (a.kinds ++ [.sign b.closing.2])
        (bracketsAfter (.sign b.opening.2) depth) := rfl
    rw [h, bracketsAfterAll_append, hopen, a.balanced]
    exact hclose
  kinds_ne_nil := by simp
  first := ⟨b.opening.1, rfl, by cases b <;> rfl⟩
  last := by
    refine ⟨b.closing.1, ?_, by cases b <;> decide⟩
    rw [← cons_append]
    exact getLast?_concat
  oneLine hmem := by
    simp only [mem_cons, mem_append, not_mem_nil, or_false] at hmem
    rcases hmem with h | h | h
    · cases b <;> exact absurd h (by decide)
    · exact a.oneLine h
    · cases b <;> exact absurd h (by decide)

/-- Brackets around nothing. -/
def hollow (b : Bracket) : Spelling where
  chars := [b.opening.1, b.closing.1]
  kinds := [.sign b.opening.2, .sign b.closing.2]
  lexes _ hmore := b.lexes_opening (b.lexes_closing hmore)
  balanced _ := by cases b <;> rfl
  kinds_ne_nil := by simp
  first := ⟨b.opening.1, rfl, by cases b <;> rfl⟩
  last := ⟨b.closing.1, rfl, by cases b <;> decide⟩
  oneLine := by cases b <;> decide

/-- A spelling with a sign in front of it that nothing in it goes on with. -/
def marked (c : Char) (kind : Token.Kind) (a : Spelling)
    (hlexes : ∀ {rest more}, Lexes (a.chars ++ rest) more → Lexes (c :: (a.chars ++ rest))
    (kind :: more))
    (hbalanced : ∀ depth, bracketsAfter kind depth = depth) (hc : isIndent c = false)
    (hline : c ≠ '\n') : Spelling where
  chars := c :: a.chars
  kinds := kind :: a.kinds
  lexes hrest hmore := hlexes (a.lexes hrest hmore)
  balanced depth := by
    have h : bracketsAfterAll (kind :: a.kinds) depth =
        bracketsAfterAll a.kinds (bracketsAfter kind depth) := rfl
    rw [h, hbalanced, a.balanced]
  kinds_ne_nil := by simp
  first := ⟨c, rfl, hc⟩
  last := by
    rw [← singleton_append, getLast?_append]
    exact a.last
  oneLine hmem := by
    rcases mem_cons.mp hmem with h | h
    · exact hline h.symm
    · exact a.oneLine h

private theorem paired_facts {alone withEq : Token.Kind}
    (hsign : Sign.paired? c = some (alone, withEq)) :
    isIndent c = false ∧ (c ≠ '\r' ∧ c ≠ '\n') ∧
      (∀ depth, bracketsAfter alone depth = depth) ∧ ∀ depth,
      bracketsAfter withEq depth = depth := by
  unfold Sign.paired? at hsign
  split at hsign
  all_goals first
    | (cases hsign; exact ⟨rfl, by decide, fun _ => rfl, fun _ => rfl⟩)
    | cases hsign

/-- A sign that an equals sign could follow, alone. -/
def sign (c : Char) {alone withEq : Token.Kind} (hsign : Sign.paired? c = some (alone, withEq)) :
    Spelling where
  chars := [c]
  kinds := [alone]
  lexes hrest hmore :=
    .alone hsign (hrest.head?_ne rfl) (hrest.head?_ne rfl) (hrest.head?_ne rfl) hmore
  balanced _ := (paired_facts hsign).2.2.1 _
  kinds_ne_nil := by simp
  first := ⟨c, rfl, (paired_facts hsign).1⟩
  last := ⟨c, rfl, (paired_facts hsign).2.1.1⟩
  oneLine hmem := (paired_facts hsign).2.1.2 (mem_singleton.mp hmem).symm

/-- A sign with an equals sign after it. -/
def signEq (c : Char) {alone withEq : Token.Kind} (hsign : Sign.paired? c = some (alone, withEq)) :
    Spelling where
  chars := [c, '=']
  kinds := [withEq]
  lexes _ hmore := .withEq hsign hmore
  balanced _ := (paired_facts hsign).2.2.2 _
  kinds_ne_nil := by simp
  first := ⟨c, rfl, (paired_facts hsign).1⟩
  last := ⟨'=', rfl, by decide⟩
  oneLine hmem := by
    rcases mem_cons.mp hmem with h | h
    · exact (paired_facts hsign).2.1.2 h.symm
    · exact absurd h (by decide)

end Spelling

/-! ### Spelled lines -/

/-- A text is cut into its lines again, if they have neither line feeds nor a carriage return at
their end. -/
theorem Source.ofText_lines {lines : List (List Char)}
    (h : ∀ cs ∈ lines, '\n' ∉ cs ∧ cs.getLast? ≠ some '\r') :
    (Source.ofText (String.ofList (lines.flatMap (· ++ ['\n'])))).map SourceLine.chars? =
      lines.map some := by
  have hpieces {cs more : List Char} (hline : '\n' ∉ cs) :
      pieces '\n' (cs ++ '\n' :: more) = (cs, true) :: pieces '\n' more := by
    induction cs with
    | nil => rfl
    | cons c cs ih =>
      rw [mem_cons, not_or] at hline
      rw [cons_append, pieces, if_neg (Ne.symm hline.1), ih hline.2]
  rw [ofText, String.toList_ofList]
  induction lines with
  | nil => rfl
  | cons cs lines ih =>
    obtain ⟨⟨hline, hlast⟩, hlines⟩ := forall_mem_cons.mp h
    have hdrop : dropReturn cs = cs := if_neg hlast
    rw [flatMap_cons, append_assoc, singleton_append, hpieces hline, map_cons, map_cons, ih hlines,
      map_cons, lineOf, if_pos rfl, hdrop, hdrop, SourceLine.ofChars, dif_neg hline]
    rfl

/-- A line behind its indentation. -/
structure SpelledLine where
  /-- The number of spaces in front. -/
  indent : Nat
  /-- What stands on the line. -/
  spelling : Spelling

namespace SpelledLine

/-- The characters of a line. -/
def chars (line : SpelledLine) : List Char := List.replicate line.indent ' ' ++ line.spelling.chars

/-- What the tokens of a line are, and its indentation. -/
def marks (line : SpelledLine) : List (Token.Kind × Nat) :=
  (line.spelling.kinds ++ [Token.Kind.newline]).map (·, line.indent)

/-- The text that consists of lines. -/
def text (lines : List SpelledLine) : String :=
  String.ofList (lines.flatMap fun line => line.chars ++ ['\n'])

variable (line : SpelledLine)

private theorem oneLine : '\n' ∉ line.chars := by
  intro hmem
  rcases mem_append.mp hmem with h | h
  · exact absurd (eq_of_mem_replicate h) (by decide)
  · exact line.spelling.oneLine h

private theorem getLast?_chars_ne : line.chars.getLast? ≠ some '\r' := by
  obtain ⟨c, hc, hreturn⟩ := line.spelling.last
  rw [chars, Spelling.getLast?_append, hc]
  simpa using hreturn

private theorem ofText_text (lines : List SpelledLine) :
    (Source.ofText (text lines)).map SourceLine.chars? = lines.map fun line => some line.chars := by
  rw [text, ← flatMap_map chars (· ++ ['\n']), Source.ofText_lines, map_map]
  · rfl
  · intro cs hcs
    obtain ⟨line, -, rfl⟩ := mem_map.mp hcs
    exact ⟨line.oneLine, line.getLast?_chars_ne⟩

private theorem exists_cutLines (path : String) (lines : List SpelledLine) :
    ∃ cut : List (List Piece), cut.map Piece.text = lines.map chars ∧
    (∀ mark, IsSpaced mark → CutLines 0 mark cut) ∧
      ∀ number, (tokensOf path number 0 cut).map Token.mark = lines.flatMap marks ++
      [(Token.Kind.eof, 0)] := by
  induction lines with
  | nil => exact ⟨[], rfl, fun mark _ => .nil, fun number => rfl⟩
  | cons line lines ih =>
    obtain ⟨cut, htext, hcut, htoks⟩ := ih
    obtain ⟨ps, hps, hkinds, hline⟩ := line.spelling.lexes_alone.exists_cut
    have hfirst : ∀ c ∈ (Piece.text ps).head?, isIndent c = false := by
      obtain ⟨d, hd, hind⟩ := line.spelling.first
      intro c hc
      rw [hps, hd] at hc
      cases hc
      exact hind
    refine ⟨indented line.indent ps :: cut, ?_, fun mark => .indented hline hfirst hcut,
      fun number => ?_⟩
    · rw [map_cons, map_cons, htext, text_indented, hps, chars]
    · have hempty : line.spelling.kinds.isEmpty = false := by simpa using line.spelling.kinds_ne_nil
      rw [tokensOf, kinds_indented, hkinds, line.spelling.balanced, hempty, map_append, htoks,
        map_append, LineContext.mark_tokens, kinds_indented, hkinds]
      simp [marks, LineContext.ofLine, takeWhile_text_indented hfirst, LineContext.ending,
        LineContext.token, Token.mark]

/-- A text of spelled lines is scanned without a fault, into what it is spelled from. -/
theorem scan_text (path : String) (lines : List SpelledLine) :
    let scanned := scan path (Source.ofText (text lines))
    scanned.fault = none ∧ scanned.tokens.map Token.mark = lines.flatMap marks ++
        [(Token.Kind.eof, 0)] := by
  obtain ⟨cut, htext, hcut, htoks⟩ := exists_cutLines path lines
  have hsrc : (Source.ofText (text lines)).map SourceLine.chars? = cut.map (some ∘ Piece.text) := by
    rw [ofText_text, ← map_map, htext, map_map]
    rfl
  have hscan : scan path (Source.ofText (text lines)) = _ :=
    scanLines_of_cutLines (hcut none (.inl rfl)) 1 {} rfl rfl hsrc
  rw [hscan]
  exact ⟨rfl, htoks 1⟩

end SpelledLine

end BlockScript
