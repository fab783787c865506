import BlockScript.Token.Scanner

/-!
# Pieces of a line

A line is cut into lexemes and the characters between them. Nothing gets lost: the pieces together
are the line. A line is scanned without a fault exactly if it can be cut, and then its tokens are
its lexemes.
-/

namespace BlockScript

open List

variable {depth : Nat} {ps : List Piece} {state : ScanState} {path : String}

/-! ### Lexemes -/

section Lexemes

variable {c : Char} {rest cs : List Char} {kind : Token.Kind} {length : Nat}

/-- The number that a whole part and a fraction stand for. -/
def decimalValue (whole fraction : List Char) : Float :=
  Decimal.nearest (Decimal.digitsValue (whole ++ fraction)) (-(fraction.length : Int))

/-- How a whole part and a fraction are written; without a fraction there is no point. -/
def decimalChars (whole fraction : List Char) : List Char :=
  if fraction.isEmpty then whole else whole ++ '.' :: fraction

/-- Whether a first character and some others are the lexeme of a kind of token. -/
inductive IsLexeme : Char → Token.Kind → List Char → Prop
  | single {c : Char} {sign : Sign} (h : Sign.single? c = some sign) : IsLexeme c (.sign sign) []
  | alone {c : Char} {alone withEq : Token.Kind} (h : Sign.paired? c = some (alone, withEq)) :
    IsLexeme c alone []
  | withEq {c : Char} {alone withEq : Token.Kind} (h : Sign.paired? c = some (alone, withEq)) :
    IsLexeme c withEq ['=']
  | doubled {c : Char} {word : Keyword} (h : Keyword.doubled? c = some word) :
    IsLexeme c (.keyword word) [c]
  | directive {name : List Char} (hne : name ≠ []) (hname : ∀ d ∈ name, isNamePart d) :
    IsLexeme '#' (.directive (String.ofList name)) name
  | text {body : List Char} (hbody : ∀ d ∈ body, d ≠ '"') :
    IsLexeme '"' (.literal (.string (String.ofList body))) (body ++ ['"'])
  | number {c : Char} {whole fraction cs : List Char} (hwhole : ∀ d ∈ c :: whole, d.isDigit)
    (hfrac : ∀ d ∈ fraction, d.isDigit) (hchars : decimalChars (c :: whole) fraction = c :: cs) :
    IsLexeme c (.literal (.number (decimalValue (c :: whole) fraction))) cs
  | word {c : Char} {cs : List Char} (hstart : isNameStart c) (hparts : ∀ d ∈ cs, isNamePart d) :
    IsLexeme c (.ofWord (String.ofList (c :: cs))) cs

/-- The fraction of a number, after its whole part. -/
private def fraction : List Char → List Char
  | '.' :: rest => rest.takeWhile Char.isDigit
  | _ => []

private theorem isDigit_of_mem_takeWhile (cs : List Char) :
    ∀ d ∈ cs.takeWhile Char.isDigit, d.isDigit :=
  all_eq_true.mp all_takeWhile

private theorem exists_of_fraction_ne_nil (h : fraction cs ≠ []) :
    (∀ d ∈ fraction cs, d.isDigit) ∧ ∃ more, cs = '.' :: (fraction cs ++ more) := by
  unfold fraction at h ⊢
  split at h
  · exact ⟨isDigit_of_mem_takeWhile _, _, by rw [takeWhile_append_dropWhile]⟩
  · exact absurd rfl h

private theorem exists_of_recogniseNumber (hc : c.isDigit)
    (h : recogniseNumber (c :: rest) = (kind, length)) :
    ∃ cs more, rest = cs ++ more ∧ length = cs.length + 1 ∧ IsLexeme c kind cs := by
  obtain ⟨w, tail, hw, hdigits, rfl⟩ :
      ∃ w tail, rest.takeWhile Char.isDigit = w ∧ (∀ d ∈ w, d.isDigit) ∧ rest = w ++ tail :=
    ⟨_, _, rfl, isDigit_of_mem_takeWhile rest, takeWhile_append_dropWhile.symm⟩
  have hwhole : ∀ d ∈ c :: w, d.isDigit := forall_mem_cons.mpr ⟨hc, hdigits⟩
  have hnum : recogniseNumber (c :: (w ++ tail)) =
        (.literal (.number (decimalValue (c :: w) (fraction tail))),
        (c :: w).length + if (fraction tail).isEmpty then 0 else (fraction tail).length + 1) := by
    unfold recogniseNumber
    rw [takeWhile_cons_of_pos hc, hw, ← cons_append]
    dsimp only
    rw [drop_left]
    rfl
  rw [hnum] at h
  cases h
  by_cases hnil : fraction tail = []
  · rw [hnil]
    exact ⟨w, tail, rfl, rfl, .number hwhole (forall_mem_nil _) rfl⟩
  · obtain ⟨hfrac, more, htail⟩ := exists_of_fraction_ne_nil hnil
    refine ⟨w ++ '.' :: fraction tail, more, ?_, ?_, .number hwhole hfrac ?_⟩
    · rw [append_assoc, cons_append, ← htail]
    · simp [hnil]
      omega
    · simp [decimalChars, hnil]

private theorem exists_of_recognise (h : recognise c rest = .ok (kind, length)) :
    ∃ cs more, rest = cs ++ more ∧ length = cs.length + 1 ∧ IsLexeme c kind cs := by
  unfold recognise at h
  split at h
  · rename_i hsingle
    cases h
    exact ⟨[], rest, rfl, rfl, .single hsingle⟩
  · rename_i hpaired
    split at h
    · rename_i hequals
      cases h
      obtain ⟨more, rfl⟩ := head?_eq_some_iff.mp hequals
      exact ⟨['='], more, rfl, rfl, .withEq hpaired⟩
    · cases h
      exact ⟨[], rest, rfl, rfl, .alone hpaired⟩
  · rename_i hdoubled
    split at h
    · rename_i hsnd
      cases h
      obtain ⟨more, rfl⟩ := head?_eq_some_iff.mp hsnd
      exact ⟨[c], more, rfl, rfl, .doubled hdoubled⟩
    · cases h
  · split at h
    · rename_i hmark
      subst hmark
      unfold recogniseDirective at h
      dsimp only at h
      split at h
      · cases h
      · rename_i hname
        cases h
        exact ⟨_, _, takeWhile_append_dropWhile.symm, rfl,
          .directive (by simpa using hname) fun d hd => all_eq_true.mp all_takeWhile d hd⟩
    split at h
    · rename_i hquote
      subst hquote
      unfold recogniseText at h
      dsimp only at h
      split at h
      · cases h
      · rename_i hlen
        cases h
        obtain ⟨more, hmore⟩ : ∃ more, rest = rest.takeWhile (· != '"') ++ '"' :: more := by
          have hrest := takeWhile_append_dropWhile (p := (· != '"')) (l := rest)
          have hhead := head?_dropWhile_not (· != '"') rest
          cases hdrop : rest.dropWhile (· != '"') with
          | nil => exact absurd (by rw [hdrop, append_nil] at hrest; rw [hrest]) hlen
          | cons d more =>
            rw [hdrop] at hrest hhead
            obtain rfl : d = '"' := by simpa using hhead
            exact ⟨more, hrest.symm⟩
        refine ⟨rest.takeWhile (· != '"') ++ ['"'], more, ?_, by simp, .text fun d hd => ?_⟩
        · rwa [append_assoc, singleton_append]
        · simpa using all_eq_true.mp all_takeWhile d hd
    split at h
    · rename_i hdigit
      exact exists_of_recogniseNumber hdigit (Except.ok.inj h)
    split at h
    · rename_i hstart
      cases h
      exact ⟨_, _, takeWhile_append_dropWhile.symm, rfl,
        .word hstart fun d hd => all_eq_true.mp all_takeWhile d hd⟩
    · cases h

/-- A lexeme has a character, and is no longer than the line. -/
theorem recognise_length (h : recognise c rest = .ok (kind, length)) :
    0 < length ∧ length ≤ rest.length + 1 := by
  obtain ⟨cs, more, rfl, rfl, -⟩ := exists_of_recognise h
  rw [length_append]
  omega

/-- The kind of a lexeme is neither the end of a line nor the end of the input. -/
theorem IsLexeme.ne_end (h : IsLexeme c kind cs) : kind ≠ .newline ∧ kind ≠ .eof := by
  cases h with
  | alone hpaired | withEq hpaired =>
    unfold Sign.paired? at hpaired
    split at hpaired <;> cases hpaired <;> exact ⟨nofun, nofun⟩
  | word =>
    unfold Token.Kind.ofWord
    split
    · exact ⟨nofun, nofun⟩
    · split
      · exact ⟨nofun, nofun⟩
      · split <;> exact ⟨nofun, nofun⟩
  | _ => exact ⟨nofun, nofun⟩

end Lexemes

/-! ### Pieces -/

/-- The number of open brackets after some tokens. -/
def bracketsAfterAll (kinds : List Token.Kind) (depth : Nat) : Nat :=
  kinds.foldl (fun depth kind => bracketsAfter kind depth) depth

/-- What the parser looks at in a token: what it is, and the indentation of its line. -/
def Token.mark (t : Token) : Token.Kind × Nat := (t.kind, t.indent)

/-- A piece of a line: a lexeme, or a character that belongs to none. -/
inductive Piece where
  | gap (c : Char)
  | lexeme (kind : Token.Kind) (first : Char) (more : List Char)

namespace Piece

/-- The characters of a piece. -/
def chars : Piece → List Char
  | gap c => [c]
  | lexeme _ first more => first :: more

/-- The kind of a lexeme. -/
def kind? : Piece → Option Token.Kind
  | gap _ => none
  | lexeme kind _ _ => some kind

/-- The characters of pieces. -/
def text (ps : List Piece) : List Char := ps.flatMap chars

/-- The kinds of the lexemes among pieces. -/
def kinds (ps : List Piece) : List Token.Kind := ps.filterMap kind?

@[simp] private theorem text_nil : text [] = [] := rfl

variable (kind : Token.Kind) (c : Char) (cs : List Char)

/-- A gap is one character. -/
@[simp] theorem text_gap (ps : List Piece) : text (gap c :: ps) = c :: text ps := rfl

/-- A lexeme is its characters. -/
@[simp] theorem text_lexeme (ps : List Piece) :
    text (lexeme kind c cs :: ps) = c :: (cs ++ text ps) := rfl

/-- Gaps are their characters. -/
@[simp] theorem text_gaps : text (cs.map gap) = cs := by
  induction cs with
  | nil => rfl
  | cons c cs ih => rw [map_cons, text_gap, ih]

@[simp] private theorem kinds_nil : kinds [] = [] := rfl

@[simp] private theorem kinds_gap (ps : List Piece) : kinds (gap c :: ps) = kinds ps := rfl

@[simp] private theorem kinds_lexeme (ps : List Piece) :
    kinds (lexeme kind c cs :: ps) = kind :: kinds ps := rfl

/-- Gaps are no tokens. -/
@[simp] theorem kinds_gaps : kinds (cs.map gap) = [] := by
  induction cs with
  | nil => rfl
  | cons c cs ih => rw [map_cons, kinds_gap, ih]

end Piece

open Piece

/-- Pieces as they are cut from the start of a line, or from where `depth` comments are open, to its
end, where `depth'` are open. -/
inductive Cut : Nat → List Piece → Nat → Prop where
  | nil {depth : Nat} : Cut depth [] depth
  | blank {depth depth' : Nat} {c : Char} {ps : List Piece} :
      isIndent c → Cut depth ps depth' → Cut depth (gap c :: ps) depth'
  | opening {depth depth' : Nat} {ps : List Piece} :
      Cut (depth + 1) ps depth' → Cut depth (gap '/' :: gap '*' :: ps) depth'
  | closing {depth depth' : Nat} {ps : List Piece} :
      Cut depth ps depth' → Cut (depth + 1) (gap '*' :: gap '/' :: ps) depth'
  | inside {depth depth' : Nat} {c : Char} {ps : List Piece} :
      (c = '/' → (text ps).head? ≠ some '*') → (c = '*' → (text ps).head? ≠ some '/') →
      Cut (depth + 1) ps depth' → Cut (depth + 1) (gap c :: ps) depth'
  | comment (cs : List Char) : Cut 0 (gap '/' :: gap '/' :: cs.map gap) 0
  | lexeme {depth' : Nat} {c : Char} {cs : List Char} {kind : Token.Kind} {ps : List Piece} :
      isIndent c = false →
      (c = '/' → (cs ++ text ps).head? ≠ some '/' ∧ (cs ++ text ps).head? ≠ some '*') →
      recognise c (cs ++ text ps) = .ok (kind, cs.length + 1) → Cut 0 ps depth' →
      Cut 0 (lexeme kind c cs :: ps) depth'

/-- What is recognised at the start of a line is cut off, if the rest can be cut. -/
theorem Cut.exists_of_recognise {length : Nat} {c : Char} {rest : List Char} {kind : Token.Kind}
    (hind : isIndent c = false) (hslash : c = '/' → rest.head? ≠ some '/' ∧ rest.head? ≠ some '*')
    (hrec : recognise c rest = .ok (kind, length)) (hps : text ps = rest.drop (length - 1))
    (hcut : Cut 0 ps depth) :
    ∃ ps', text ps' = c :: rest ∧ kinds ps' = kind :: kinds ps ∧ Cut 0 ps' depth := by
  obtain ⟨hpos, hlen⟩ := recognise_length hrec
  have hrest : rest.take (length - 1) ++ text ps = rest := by rw [hps, take_append_drop]
  have htaken : (rest.take (length - 1)).length + 1 = length := by
    rw [length_take]
    omega
  refine ⟨Piece.lexeme kind c (rest.take (length - 1)) :: ps, by rw [text_lexeme, hrest], rfl,
    .lexeme hind (by rwa [hrest]) ?_ hcut⟩
  rw [hrest, htaken, hrec]

/-- The lexemes among pieces are lexemes of their kinds. -/
theorem Cut.isLexeme_of_mem {depth' : Nat} (h : Cut depth ps depth') {kind : Token.Kind} {c : Char}
    {cs : List Char} (hmem : Piece.lexeme kind c cs ∈ ps) : IsLexeme c kind cs := by
  induction h with
  | nil => cases hmem
  | blank _ _ ih | inside _ _ _ ih => exact ih (by simpa using hmem)
  | opening _ ih | closing _ ih => exact ih (by simpa using hmem)
  | comment => simp at hmem
  | lexeme _ _ hrec _ ih =>
    rcases mem_cons.mp hmem with heq | hmem
    · cases heq
      obtain ⟨cs', more, hrest, hlen, hlexeme⟩ := BlockScript.exists_of_recognise hrec
      obtain ⟨rfl, -⟩ := append_inj hrest (Nat.succ.inj hlen)
      exact hlexeme
    · exact ih hmem

namespace LineContext

variable (line : LineContext)

/-- The tokens of pieces from a column on. -/
def tokens : Nat → List Piece → List Token
  | _, [] => []
  | column, gap _ :: ps => tokens (column + 1) ps
  | column, lexeme kind c cs :: ps =>
    line.token kind (c :: cs) (line.span column (column + (cs.length + 1))) ::
      tokens (column + (cs.length + 1)) ps

private theorem tokens_gaps (cs : List Char) (column : Nat) :
    line.tokens column (cs.map gap) = [] := by
  induction cs generalizing column with
  | nil => rfl
  | cons c cs ih => exact ih (column + 1)

/-- The tokens of pieces are what their kinds say, on the line where they stand. -/
theorem mark_tokens (column : Nat) (ps : List Piece) :
    (line.tokens column ps).map Token.mark = (kinds ps).map (·, line.leading.length) := by
  induction ps generalizing column with
  | nil => rfl
  | cons p ps ih =>
    cases p with
    | gap c => exact ih (column + 1)
    | lexeme kind c cs => exact congrArg ((kind, line.leading.length) :: ·) (ih _)

/-- A token of pieces is one of their lexemes, where it stands. -/
theorem exists_of_mem_tokens {t : Token} {column : Nat} (ht : t ∈ line.tokens column ps) :
    ∃ before kind c cs after, ps = before ++ lexeme kind c cs :: after ∧
      t = line.token kind (c :: cs) (line.span (column + (text before).length)
        (column + (text before).length + (cs.length + 1))) := by
  induction ps generalizing column with
  | nil => cases ht
  | cons p ps ih =>
    cases p with
    | gap d =>
      obtain ⟨before, kind, c, cs, after, rfl, rfl⟩ := ih ht
      refine ⟨gap d :: before, kind, c, cs, after, rfl, ?_⟩
      rw [text_gap, length_cons, Nat.add_assoc column, Nat.add_comm 1]
    | lexeme kind d ds =>
      rcases mem_cons.mp ht with rfl | ht
      · exact ⟨[], kind, d, ds, ps, rfl, rfl⟩
      · obtain ⟨before, kind', c, cs, after, rfl, rfl⟩ := ih ht
        refine ⟨lexeme kind d ds :: before, kind', c, cs, after, rfl, ?_⟩
        rw [show column + (text (lexeme kind d ds :: before)).length =
          column + (ds.length + 1) + (text before).length by simp; omega]

/-- What becomes of the indentation mark when a token is found. -/
def nextMark (started : Bool) (mark : Option Char) : Except Nat (Option Char) :=
  if started then .ok mark else checkIndent mark 1 line.leading

/-- The result of scanning pieces. -/
def scanned (column : Nat) (started : Bool) (state : ScanState) (ps : List Piece) (depth : Nat)
    (start : Position) (mark : Option Char) : LineScan :=
  let ending := line.finish (started || !(kinds ps).isEmpty)
    { commentDepth := depth, commentStart := start
      bracketDepth := bracketsAfterAll (kinds ps) state.bracketDepth
      indentMark := if (kinds ps).isEmpty then state.indentMark else mark }
  { ending with tokens := line.tokens column ps ++ ending.tokens }

variable {line} {steps column length : Nat} {started : Bool} {state : ScanState} {c a b : Char}
  {rest : List Char} {kind : Token.Kind} {mark : Option Char}

private theorem ne_of_isIndent {d : Char} (hc : isIndent c) (hd : isIndent d = false) : c ≠ d := by
  rintro rfl
  rw [hc] at hd
  cases hd

private theorem scanFrom_nil (steps column : Nat) (started : Bool) (state : ScanState) :
    line.scanFrom steps column started state [] = line.finish started state := by
  cases steps <;> rfl

private theorem scanFrom_blank (hc : isIndent c) :
    line.scanFrom (steps + 1) column started state (c :: rest) = line.scanFrom steps (column + 1)
      started state rest := by
  have hblank : (c = ' ' || c = '\t') = true := by simpa [isIndent] using hc
  have hslash : ¬(c = '/' && rest.head? = some '*') = true := by
    simp [ne_of_isIndent hc (d := '/') rfl]
  have hstar : ¬(c = '*' && rest.head? = some '/') = true := by
    simp [ne_of_isIndent hc (d := '*') rfl]
  rw [scanFrom, if_neg hslash, if_neg hstar, if_pos hblank, ite_self]

private theorem scanFrom_opening (line : LineContext) (steps column : Nat) (started : Bool)
    (state : ScanState) (rest : List Char) :
    ∃ start, line.scanFrom (steps + 1) column started state ('/' :: '*' :: rest) =
      line.scanFrom steps (column + 2) started
        { state with commentDepth := state.commentDepth + 1, commentStart := start } rest := by
  by_cases hdepth : 0 < state.commentDepth
  · refine ⟨state.commentStart, ?_⟩
    rw [scanFrom, if_pos hdepth]
    rfl
  · refine ⟨⟨line.number, column⟩, ?_⟩
    have hzero : state.commentDepth = 0 := by omega
    rw [scanFrom, if_neg hdepth, hzero]
    rfl

private theorem scanFrom_closing (hdepth : state.commentDepth = depth + 1) :
    line.scanFrom (steps + 1) column started state ('*' :: '/' :: rest) =
      line.scanFrom steps (column + 2) started { state with commentDepth := depth } rest := by
  rw [scanFrom, if_pos (by omega), hdepth]
  rfl

private theorem scanFrom_inside (hdepth : 0 < state.commentDepth)
    (hopen : c = '/' → rest.head? ≠ some '*') (hclose : c = '*' → rest.head? ≠ some '/') :
    line.scanFrom (steps + 1) column started state (c :: rest) = line.scanFrom steps (column + 1)
      started state rest := by
  rw [scanFrom, if_pos hdepth, if_neg (by simpa using hopen), if_neg (by simpa using hclose)]

private theorem scanFrom_comment (hdepth : state.commentDepth = 0) :
    line.scanFrom (steps + 1) column started state ('/' :: '/' :: rest) =
    line.finish started state := by
  rw [scanFrom, if_neg (by omega)]
  rfl

private theorem scanFrom_lexeme (hcomment : state.commentDepth = 0) (hind : isIndent c = false)
    (hslash : c = '/' → rest.head? ≠ some '/' ∧ rest.head? ≠ some '*')
    (hrec : recognise c rest = .ok (kind, length))
    (hmark : line.nextMark started state.indentMark = .ok mark) :
    line.scanFrom (steps + 1) column started state (c :: rest) =
    (line.scanFrom steps (column + length) true
        { state with indentMark := mark, bracketDepth := bracketsAfter kind state.bracketDepth }
        (rest.drop (length - 1))).push
      (line.token kind ((c :: rest).take length) (line.span column (column + length))) := by
  have hblank : ¬(c = ' ' || c = '\t') = true := by simpa [isIndent] using hind
  have hline : ¬(c = '/' && rest.head? = some '/') = true := by
    intro h
    simp only [Bool.and_eq_true, decide_eq_true_eq] at h
    exact (hslash h.1).1 h.2
  have hblock : ¬(c = '/' && rest.head? = some '*') = true := by
    intro h
    simp only [Bool.and_eq_true, decide_eq_true_eq] at h
    exact (hslash h.1).2 h.2
  unfold nextMark at hmark
  rw [scanFrom, if_neg (by simp [hcomment]), if_neg hblank, if_neg hline, if_neg hblock, hrec]
  dsimp only
  rw [hmark]

variable (line)

private theorem scanFrom_of_cut {depth' : Nat} (h : Cut depth ps depth') :
    ∀ (steps column : Nat) (started : Bool) (state : ScanState) (mark : Option Char),
      (text ps).length ≤ steps → state.commentDepth = depth →
      (kinds ps ≠ [] → line.nextMark started state.indentMark = .ok mark) →
      ∃ start, line.scanFrom steps column started state (text ps) =
        line.scanned column started state ps depth' start mark := by
  have hsucc {n steps : Nat} (h : n + 1 ≤ steps) : ∃ k, steps = k + 1 := ⟨steps - 1, by omega⟩
  induction h with
  | @nil depth =>
    rintro steps column started state mark _ rfl _
    refine ⟨state.commentStart, ?_⟩
    rw [text_nil, scanFrom_nil]
    simp [scanned, tokens, bracketsAfterAll]
  | blank hc _ ih =>
    intro steps column started state mark hsteps hdepth hmark
    obtain ⟨steps, rfl⟩ := hsucc hsteps
    rw [text_gap, scanFrom_blank hc]
    exact ih steps (column + 1) started state mark (Nat.le_of_succ_le_succ hsteps) hdepth hmark
  | @opening depth depth' ps _ ih =>
    intro steps column started state mark hsteps hdepth hmark
    obtain ⟨steps, rfl⟩ := hsucc hsteps
    obtain ⟨start, hstart⟩ := line.scanFrom_opening steps column started state (text ps)
    rw [text_gap, text_gap, hstart]
    exact ih steps (column + 2) started _ mark (by simp at hsteps; omega) (by simp [hdepth]) hmark
  | @closing depth depth' ps _ ih =>
    intro steps column started state mark hsteps hdepth hmark
    obtain ⟨steps, rfl⟩ := hsucc hsteps
    rw [text_gap, text_gap, scanFrom_closing hdepth]
    exact ih steps (column + 2) started { state with commentDepth := depth } mark
      (by simp at hsteps; omega) rfl hmark
  | inside hopen hclose _ ih =>
    intro steps column started state mark hsteps hdepth hmark
    obtain ⟨steps, rfl⟩ := hsucc hsteps
    rw [text_gap, scanFrom_inside (by omega) hopen hclose]
    exact ih steps (column + 1) started state mark (Nat.le_of_succ_le_succ hsteps) hdepth hmark
  | comment cs =>
    intro steps column started state mark hsteps hdepth hmark
    obtain ⟨steps, rfl⟩ := hsucc hsteps
    refine ⟨state.commentStart, ?_⟩
    rw [text_gap, text_gap, scanFrom_comment hdepth]
    simp [scanned, tokens, tokens_gaps, bracketsAfterAll, ← hdepth]
  | @lexeme depth' c cs kind ps hind hslash hrec _ ih =>
    intro steps column started state mark hsteps hdepth hmark
    obtain ⟨steps, rfl⟩ := hsucc hsteps
    have hmark := hmark (by simp)
    have hlen : (text ps).length ≤ steps := by simp at hsteps; omega
    let after : ScanState :=
      { state with indentMark := mark, bracketDepth := bracketsAfter kind state.bracketDepth }
    obtain ⟨start, hstart⟩ :=
      ih steps (column + (cs.length + 1)) true after mark hlen hdepth fun _ => rfl
    refine ⟨start, ?_⟩
    rw [text_lexeme, scanFrom_lexeme hdepth hind hslash hrec hmark, Nat.add_sub_cancel,
      drop_left, hstart]
    simp [scanned, tokens, LineScan.push, after, bracketsAfterAll]

/-- A pair of characters. -/
theorem exists_of_pair (h : (c = a && rest.head? = some b)) : ∃ more, c = a ∧ rest = b :: more := by
  simp only [Bool.and_eq_true, decide_eq_true_eq] at h
  obtain ⟨more, hmore⟩ := head?_eq_some_iff.mp h.2
  exact ⟨more, h.1, hmore⟩

private theorem head?_ne_of_pair (h : ¬(c = a && rest.head? = some b)) (hc : c = a) :
    rest.head? ≠ some b := by
  simpa [hc] using h

private theorem exists_cut_of_scanFrom {cs : List Char}
    (hfault : (line.scanFrom steps column started state cs).fault = none)
    (hsteps : cs.length ≤ steps) :
    ∃ ps depth mark, text ps = cs ∧ Cut state.commentDepth ps depth ∧
      (kinds ps ≠ [] → line.nextMark started state.indentMark = .ok mark) := by
  fun_induction LineContext.scanFrom line steps column started state cs with
  | case1 steps column started state c rest hdepth hopening ih =>
    obtain ⟨rest, rfl, rfl⟩ := exists_of_pair hopening
    obtain ⟨ps, depth, mark, rfl, hcut, hmark⟩ := ih hfault (by simp at hsteps ⊢; omega)
    exact ⟨_, depth, mark, rfl, .opening hcut, hmark⟩
  | case2 steps column started state c rest hdepth _ hclosing ih =>
    obtain ⟨rest, rfl, rfl⟩ := exists_of_pair hclosing
    obtain ⟨ps, depth, mark, rfl, hcut, hmark⟩ := ih hfault (by simp at hsteps ⊢; omega)
    refine ⟨gap '*' :: gap '/' :: ps, depth, mark, rfl, ?_, hmark⟩
    rw [← Nat.sub_add_cancel hdepth]
    exact .closing hcut
  | case3 steps column started state c rest hdepth hopening hclosing ih =>
    obtain ⟨ps, depth, mark, rfl, hcut, hmark⟩ := ih hfault (by simp at hsteps ⊢; omega)
    refine ⟨gap c :: ps, depth, mark, rfl, ?_, hmark⟩
    rw [← Nat.sub_add_cancel hdepth] at hcut ⊢
    exact .inside (head?_ne_of_pair hopening) (head?_ne_of_pair hclosing) hcut
  | case4 steps column started state c rest hdepth hblank ih =>
    obtain ⟨ps, depth, mark, rfl, hcut, hmark⟩ := ih hfault (by simp at hsteps ⊢; omega)
    exact ⟨_, depth, mark, rfl, .blank (by simpa [isIndent] using hblank) hcut, hmark⟩
  | case5 steps column started state c rest hdepth _ hcomment =>
    obtain ⟨rest, rfl, rfl⟩ := exists_of_pair hcomment
    rw [Nat.eq_zero_of_not_pos hdepth]
    exact ⟨_, 0, none, by simp, .comment rest, by simp⟩
  | case6 steps column started state c rest hdepth _ _ hopening ih =>
    obtain ⟨rest, rfl, rfl⟩ := exists_of_pair hopening
    obtain ⟨ps, depth, mark, rfl, hcut, hmark⟩ := ih hfault (by simp at hsteps ⊢; omega)
    rw [Nat.eq_zero_of_not_pos hdepth]
    exact ⟨_, depth, mark, rfl, .opening hcut, hmark⟩
  | case7 => cases hfault
  | case8 => cases hfault
  | case9 steps column started state c rest hdepth hblank hline hblock kind length hrec mark hmark
      after token ih =>
    have hzero := Nat.eq_zero_of_not_pos hdepth
    have hlen := (recognise_length hrec).2
    obtain ⟨ps, depth, -, hps, hcut, -⟩ := ih hfault (by simp at hsteps ⊢; omega)
    obtain ⟨ps', htext, -, hcut'⟩ := Cut.exists_of_recognise (by simpa [isIndent] using hblank)
      (fun hc => ⟨head?_ne_of_pair hline hc, head?_ne_of_pair hblock hc⟩) hrec hps (hzero ▸ hcut)
    exact ⟨ps', depth, mark, htext, hzero ▸ hcut', fun _ => hmark⟩
  | case10 steps column started state cs hend =>
    have hnil : cs = [] := by
      cases cs with
      | nil => rfl
      | cons c cs =>
        cases steps with
        | zero => simp at hsteps
        | succ steps => exact (hend steps c cs rfl rfl).elim
    exact ⟨[], state.commentDepth, none, hnil.symm, .nil, by simp⟩

end LineContext

/-- The line that is scanned. -/
def LineContext.ofLine (path : String) (number : Nat) (chars : List Char) : LineContext :=
  ⟨path, number, chars.takeWhile isIndent, chars.length⟩

private theorem scanLine_of_cut (path : String) (number : Nat) {mark : Option Char}
    (hcut : Cut state.commentDepth ps depth) (hmark : kinds ps ≠ [] →
    LineContext.checkIndent state.indentMark 1 ((text ps).takeWhile isIndent) = .ok mark) :
    ∃ start, scanLine path number state (text ps) =
      (LineContext.ofLine path number (text ps)).scanned 1 false state ps depth start mark :=
  LineContext.scanFrom_of_cut _ hcut _ 1 false state mark (Nat.le_refl _) rfl hmark

private theorem exists_cut_of_scanLine {number : Nat} {chars : List Char}
    (hfault : (scanLine path number state chars).fault = none) :
    ∃ ps depth mark, text ps = chars ∧ Cut state.commentDepth ps depth ∧ (kinds ps ≠ [] →
      LineContext.checkIndent state.indentMark 1 ((text ps).takeWhile isIndent) = .ok mark) := by
  obtain ⟨ps, depth, mark, rfl, hcut, hmark⟩ :=
    LineContext.exists_cut_of_scanFrom _ hfault (Nat.le_refl _)
  exact ⟨ps, depth, mark, rfl, hcut, hmark⟩

/-! ### Lines -/

variable {number : Nat} {mark : Option Char} {lines : List (List Piece)} {source : Source}

/-- Lines as they are cut one after another, where `depth` comments are open and `mark` is the first
indentation character so far; no comment is open at the end. -/
inductive CutLines : Nat → Option Char → List (List Piece) → Prop where
  | nil {mark : Option Char} : CutLines 0 mark []
  | cons {depth depth' : Nat} {mark mark' : Option Char} {ps : List Piece}
      {lines : List (List Piece)} : Cut depth ps depth' →
      (kinds ps ≠ [] → LineContext.checkIndent mark 1 ((text ps).takeWhile isIndent) = .ok mark') →
      CutLines depth' (if (kinds ps).isEmpty then mark else mark') lines →
      CutLines depth mark (ps :: lines)

/-- The mark at the end of a line. -/
def LineContext.ending (line : LineContext) : Token :=
  line.token .newline [] (line.span (line.width + 1) (line.width + 1))

/-- A mark at the end of the input. -/
def endMark (path : String) (number : Nat) (kind : Token.Kind) :
    Token := ⟨kind, "", .point ⟨number, 1⟩, 0, path⟩

/-- The tokens of lines from a line number on, where `depth` brackets are open at first. A line with
lexemes is ended by a mark if no bracket is open behind them, and so is a line that is still open at
the end of the input. -/
def tokensOf (path : String) : Nat → Nat → List (List Piece) → List Token
  | number, depth, [] =>
    if depth = 0 then [endMark path number .eof] else [endMark path number .newline,
      endMark path number .eof]
  | number, depth, ps :: lines =>
    let line := LineContext.ofLine path number (text ps)
    let after := bracketsAfterAll (kinds ps) depth
    line.tokens 1 ps ++ (if !(kinds ps).isEmpty && after == 0 then [line.ending] else []) ++
      tokensOf path (number + 1) after lines

/-- The tokens of pieces are neither ends of lines nor the end of the input. -/
theorem Cut.ne_break_of_mem {depth' column : Nat} (h : Cut depth ps depth') {line : LineContext}
    {t : Token} (ht : t ∈ line.tokens column ps) : t.isNewline = false ∧ t.isEof = false := by
  obtain ⟨before, kind, c, cs, after, rfl, rfl⟩ := line.exists_of_mem_tokens ht
  exact (h.isLexeme_of_mem mem_append_cons_self).ne_end.imp beq_eq_false_iff_ne.mpr
    beq_eq_false_iff_ne.mpr

private theorem isOpen_scanned (line : LineContext) (state : ScanState) (mark : Option Char)
    {depth' : Nat} (hcut : Cut depth ps depth') (start : Position) :
    ((line.scanned 1 false state ps depth' start mark).tokens.getLast?.elim
    (state.bracketDepth != 0)
      (!·.isNewline)) = (bracketsAfterAll (kinds ps) state.bracketDepth != 0) := by
  have hmarks := line.mark_tokens 1 ps
  by_cases hkinds : kinds ps = []
  · rw [hkinds, map_nil, map_eq_nil_iff] at hmarks
    simp [LineContext.scanned, LineContext.finish, hmarks, hkinds, bracketsAfterAll]
  by_cases hafter : bracketsAfterAll (kinds ps) state.bracketDepth = 0
  · simp [LineContext.scanned, LineContext.finish, hkinds, hafter, LineContext.token,
      Token.isNewline]
  · cases hlast : (line.tokens 1 ps).getLast? with
    | none =>
      rw [getLast?_eq_none_iff.mp hlast] at hmarks
      exact absurd (map_eq_nil_iff.mp hmarks.symm) hkinds
    | some last =>
      have hnewline := (hcut.ne_break_of_mem (mem_of_getLast? hlast)).1
      simp [LineContext.scanned, LineContext.finish, hafter, hlast, hnewline]

private theorem scanLines_cons_of_cut (path : String) (number : Nat)
    (hcut : Cut state.commentDepth ps depth) (hmark : kinds ps ≠ [] →
    LineContext.checkIndent state.indentMark 1 ((text ps).takeWhile isIndent) = .ok mark) :
    ∃ start, ∀ hone rest,
      scanLines path number (state.bracketDepth != 0) state (.text (text ps) hone :: rest) =
      let line := (LineContext.ofLine path number (text ps)).scanned 1 false state ps depth
        start mark
      let more := scanLines path (number + 1) (line.state.bracketDepth != 0) line.state rest
      ⟨line.tokens ++ more.tokens, String.ofList (text ps) :: more.lines, more.fault⟩ := by
  obtain ⟨start, hscan⟩ := scanLine_of_cut path number hcut hmark
  refine ⟨start, fun _ rest => ?_⟩
  have hopen := isOpen_scanned (LineContext.ofLine path number (text ps)) state mark hcut start
  rw [scanLines, hscan]
  cases hlast :
    ((LineContext.ofLine path number (text ps)).scanned 1 false state ps depth start
    mark).tokens.getLast?
  all_goals
    rw [hlast] at hopen
    dsimp only [Option.elim] at hopen
    dsimp only
    rw [hopen]
    rfl

/-- Lines are scanned as cut. -/
theorem scanLines_of_cutLines (h : CutLines depth mark lines) :
    ∀ (number : Nat) (state : ScanState) {source : Source}, state.commentDepth = depth →
      state.indentMark = mark → source.map SourceLine.chars? = lines.map (some ∘ text) →
      scanLines path number (state.bracketDepth != 0) state source =
        ⟨tokensOf path number state.bracketDepth lines, lines.map (String.ofList ∘ text),
        none⟩ := by
  induction h with
  | nil =>
    intro number state source hdepth _ hsrc
    cases map_eq_nil_iff.mp hsrc
    simp [scanLines, scanEnd, tokensOf, hdepth, endMark]
  | @cons depth depth' mark mark' ps lines hcut hmark _ ih =>
    rintro number state source rfl rfl hsrc
    obtain ⟨line, rest, rfl, hline, hrest⟩ := map_eq_cons_iff.mp hsrc
    cases line with
    | unreadable fault => cases hline
    | text chars hone =>
      cases hline
      obtain ⟨start, hscan⟩ := scanLines_cons_of_cut path number hcut hmark
      rw [hscan]
      dsimp only
      rw [ih (number + 1) _ rfl rfl hrest]
      rfl

private theorem exists_cutLines_of_scanLines (state : ScanState)
    (hfault : (scanLines path number (state.bracketDepth != 0) state source).fault = none) :
    ∃ lines, source.map SourceLine.chars? = lines.map (some ∘ text) ∧
      CutLines state.commentDepth state.indentMark lines := by
  induction source generalizing number state with
  | nil =>
    rw [scanLines, scanEnd] at hfault
    split at hfault
    · cases hfault
    · rename_i hcomment
      exact ⟨[], rfl, Nat.eq_zero_of_not_pos hcomment ▸ .nil⟩
  | cons first rest ih =>
    cases first with
    | unreadable fault => cases hfault
    | text chars hone =>
      have hline : (scanLine path number state chars).fault = none := by
        rw [scanLines] at hfault
        cases hline : (scanLine path number state chars).fault with
        | none => rfl
        | some fault =>
          rw [hline] at hfault
          cases hfault
      obtain ⟨ps, depth', mark, rfl, hcut, hmark⟩ := exists_cut_of_scanLine hline
      obtain ⟨start, hscan⟩ := scanLines_cons_of_cut path number hcut hmark
      rw [hscan] at hfault
      obtain ⟨lines, hlines, hcuts⟩ := ih _ hfault
      exact ⟨ps :: lines, by rw [map_cons, hlines]; rfl, .cons hcut hmark hcuts⟩

/-- A source is scanned without a fault exactly if its lines can be cut, and then its tokens are
those of its lines. -/
theorem exists_cutLines_of_scan (hfault : (scan path source).fault = none) :
    ∃ lines, source.map SourceLine.chars? = lines.map (some ∘ text) ∧ CutLines 0 none lines ∧
      scan path source = ⟨tokensOf path 1 0 lines, lines.map (String.ofList ∘ text), none⟩ := by
  obtain ⟨lines, hsrc, hlines⟩ := exists_cutLines_of_scanLines {} hfault
  exact ⟨lines, hsrc, hlines, scanLines_of_cutLines hlines 1 {} rfl rfl hsrc⟩

private theorem CutLines.exists_eof_of_tokensOf (h : CutLines depth mark lines)
    (number brackets : Nat) :
    ∃ tokens eof, tokensOf path number brackets lines = tokens ++ [eof] ∧ eof.isEof ∧
      ∀ t ∈ tokens, t.isEof = false := by
  induction h generalizing number brackets with
  | nil =>
    rw [tokensOf]
    split
    · exact ⟨[], _, rfl, rfl, nofun⟩
    · exact ⟨[_], _, rfl, rfl, forall_mem_singleton.mpr rfl⟩
  | cons hcut _ _ ih =>
    obtain ⟨tokens, eof, htoks, heof, hplain⟩ := ih (number + 1) _
    rw [tokensOf, htoks, ← append_assoc]
    refine ⟨_, eof, rfl, heof,
      forall_mem_append.mpr ⟨forall_mem_append.mpr ⟨fun t ht => ?_, ?_⟩, hplain⟩⟩
    · exact (hcut.ne_break_of_mem ht).2
    · split
      · exact forall_mem_singleton.mpr rfl
      · exact nofun

/-- What is scanned without a fault ends with the end of the input, and has no other one. -/
theorem exists_eof_of_scan (hfault : (scan path source).fault = none) :
    ∃ tokens eof, (scan path source).tokens = tokens ++ [eof] ∧ eof.isEof ∧ ∀ t ∈ tokens,
    t.isEof = false := by
  obtain ⟨lines, -, hlines, hscan⟩ := exists_cutLines_of_scan hfault
  rw [hscan]
  exact hlines.exists_eof_of_tokensOf 1 0

end BlockScript
