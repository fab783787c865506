import Mathlib.Data.List.TakeWhile
import BlockScript.Compilation
import BlockScript.Proofs.Pieces
import BlockScript.Proofs.Tables

/-!
# Streams of tokens

A stream is a token list that ends with the end of the input and has no other one. Scanning makes a
stream. A directive takes tokens up to the end of its line or of its region, but never the end of
the input, and the replacement of a macro holds none. So the expansion of a stream is a stream,
whose tokens stand where the tokens before it do.
-/

namespace BlockScript

open List

variable {tokens : List Token} {t : Token} {P : Span → Prop} {path : String} {source : Source}
  {specifications : List String}

/-- Whether tokens end with the end of the input and have no other one. -/
def IsStream (tokens : List Token) : Prop :=
  ∃ front eof, tokens = front ++ [eof] ∧ eof.isEof ∧ ∀ t ∈ front, t.isEof = false

namespace IsStream

variable {t : Token} {rest tokens : List Token}

private theorem singleton (ht : t.isEof) : IsStream [t] := ⟨[], t, rfl, ht, nofun⟩

private theorem append {front : List Token} (hfront : ∀ t ∈ front, t.isEof = false)
    (h : IsStream rest) : IsStream (front ++ rest) := by
  obtain ⟨more, eof, rfl, heof, hmore⟩ := h
  exact ⟨front ++ more, eof, by rw [append_assoc], heof, forall_mem_append.mpr ⟨hfront, hmore⟩⟩

private theorem ne_nil (h : IsStream tokens) : tokens ≠ [] := by
  obtain ⟨front, eof, rfl, -, -⟩ := h
  simp

private theorem cons_cases (h : IsStream (t :: rest)) :
    t.isEof ∧ rest = [] ∨ t.isEof = false ∧ IsStream rest := by
  obtain ⟨front, eof, heq, heof, hfront⟩ := h
  cases front with
  | nil =>
    obtain ⟨rfl, rfl⟩ := List.cons.inj heq
    exact .inl ⟨heof, rfl⟩
  | cons first front =>
    obtain ⟨rfl, rfl⟩ := List.cons.inj heq
    have hplain := forall_mem_cons.mp hfront
    exact .inr ⟨hplain.1, front, eof, rfl, heof, hplain.2⟩

private theorem of_cons (h : IsStream (t :: rest)) (ht : t.isEof = false) : IsStream rest := by
  rcases h.cons_cases with ⟨heof, -⟩ | ⟨-, hrest⟩
  · rw [ht] at heof
    cases heof
  · exact hrest

end IsStream

/-- Scanning makes a stream. -/
theorem isStream_scan (h : (scan path source).fault = none) : IsStream (scan path source).tokens :=
  exists_eof_of_scan h

/-! ### Directives -/

/-- A line ends at its mark. -/
theorem afterLine_cons (t : Token) (rest : List Token) : afterLine (t :: rest) =
      if t.isNewline then rest else if t.isEof then t :: rest else afterLine rest := by
  unfold afterLine
  by_cases hline : t.isNewline
  · simp [Token.isBreak, hline]
  · by_cases heof : t.isEof
    · simp [Token.isBreak, hline, heof]
    · simp [Token.isBreak, hline, heof]

private theorem isStream_afterLine (h : IsStream tokens) : IsStream (afterLine tokens) := by
  induction tokens with
  | nil => exact absurd rfl h.ne_nil
  | cons t rest ih =>
    rw [afterLine_cons]
    rcases h.cons_cases with ⟨heof, rfl⟩ | ⟨hplain, hrest⟩
    · have hline : t.isNewline = false := by
        rw [Token.isNewline, beq_iff_eq.mp heof]
        rfl
      rw [hline, if_neg Bool.false_ne_true, if_pos heof]
      exact h
    · split
      · exact hrest
      · rw [hplain, if_neg Bool.false_ne_true]
        exact ih hrest

/-- What is after a line is left. -/
theorem afterLine_suffix (tokens : List Token) : afterLine tokens <:+ tokens := by
  induction tokens with
  | nil => exact suffix_refl _
  | cons t rest ih =>
    rw [afterLine_cons]
    split
    · exact suffix_cons _ _
    · split
      · exact suffix_refl _
      · exact ih.trans (suffix_cons _ _)

private theorem isStream_skipRegion (h : IsStream tokens) : IsStream (skipRegion tokens).2 := by
  fun_induction skipRegion tokens with
  | case1 => exact h
  | case2 t rest hkind =>
    have hplain : t.isEof = false := by
      rw [Token.isEof, hkind]
      rfl
    exact isStream_afterLine (h.of_cons hplain)
  | case3 => exact h
  | case4 t rest _ heof ih => exact ih (h.of_cons (Bool.eq_false_iff.mpr heof))

private theorem skipRegion_suffix (tokens : List Token) : (skipRegion tokens).2 <:+ tokens := by
  fun_induction skipRegion tokens with
  | case1 => exact suffix_refl _
  | case2 t rest _ => exact (afterLine_suffix rest).trans (suffix_cons _ _)
  | case3 => exact suffix_refl _
  | case4 t rest _ _ ih => exact ih.trans (suffix_cons _ _)

/-- What a directive `t` can do before some tokens. -/
inductive Directed (macros : Macros) (t : Token) : List Token → DirectiveEffect → Prop
  /-- It is at fault, and passes its line. -/
  | refused {rest : List Token} (fault : DirectiveFault) :
    Directed macros t rest ⟨macros, [.directive fault t.span], afterLine rest⟩
  /-- It ends a region that is not skipped. -/
  | closed {rest : List Token} : Directed macros t rest ⟨macros, [], afterLine rest⟩
  /-- It defines a macro by the rest of its line. -/
  | defined {u : Token} {more : List Token} (target : String) (hu : u.kind = .name target) :
    Directed macros t (u :: more)
      ⟨macros.insert target ⟨target, lineTokens more, some (t.span.merge u.span)⟩,
        redefinition macros target (t.span.merge u.span), afterLine more⟩
  /-- It removes a macro. -/
  | removed {u : Token} {more : List Token} (target : String) (hu : u.kind = .name target) :
    Directed macros t (u :: more) ⟨macros.erase target, [], afterLine more⟩
  /-- It begins a region that is not skipped. -/
  | entered {u : Token} {more : List Token} (target : String) (hu : u.kind = .name target) :
    Directed macros t (u :: more) ⟨macros, [], afterLine more⟩
  /-- It begins a region that is skipped; there is a fault if nothing ends the region. -/
  | skipped {u : Token} {more : List Token} (target : String) (hu : u.kind = .name target)
      (faults : List DirectiveFault) :
    Directed macros t (u :: more)
      ⟨macros, faults.map (.directive · t.span), (skipRegion (afterLine more)).2⟩

/-- A macro has a name. -/
theorem macroName?_eq_some {name : String} {span : Span}
    (h : macroName? tokens = some (name, span)) :
    ∃ u more, tokens = u :: more ∧ u.kind = .name name ∧ u.span = span := by
  unfold macroName? at h
  split at h
  · rename_i u more
    split at h
    · rename_i name' hkind
      obtain ⟨rfl, rfl⟩ := Prod.mk.inj (Option.some.inj h)
      exact ⟨u, more, rfl, hkind, rfl⟩
    · cases h
  · cases h

private theorem Macros.directed_conditional (macros : Macros) (t : Token) (target : String)
    (more : List Token)
    {u : Token} (hu : u.kind = .name target) (wanted : Bool) : Directed macros t (u :: more)
      (if macros.contains target == wanted then ⟨macros, [], afterLine more⟩
      else match skipRegion (afterLine more) with
        | (true, rest) => ⟨macros, [], rest⟩
        | (false, rest) => ⟨macros, [.directive (.missingEnd t.lexeme) t.span], rest⟩) := by
  have hskipped (faults : List DirectiveFault) : Directed macros t (u :: more)
      ⟨macros, faults.map (.directive · t.span), (skipRegion (afterLine more)).2⟩ :=
    .skipped target hu faults
  split
  · exact .entered target hu
  · split
    · rename_i rest heq
      rw [heq] at hskipped
      exact hskipped []
    · rename_i rest heq
      rw [heq] at hskipped
      exact hskipped [.missingEnd t.lexeme]

/-- What a directive does. -/
theorem Macros.directed (macros : Macros) (name : String) (t : Token) (rest : List Token) :
    Directed macros t rest (macros.direct name t rest) := by
  unfold direct
  dsimp only
  split
  · split
    · rename_i target span hname
      obtain ⟨u, more, rfl, hu, rfl⟩ := macroName?_eq_some hname
      exact .defined target hu
    · exact .refused _
  · split
    · rename_i target span hname
      obtain ⟨u, more, rfl, hu, rfl⟩ := macroName?_eq_some hname
      exact .removed target hu
    · exact .refused _
  · split
    · rename_i target span hname
      obtain ⟨u, more, rfl, hu, rfl⟩ := macroName?_eq_some hname
      exact directed_conditional macros t target more hu true
    · exact .refused _
  · split
    · rename_i target span hname
      obtain ⟨u, more, rfl, hu, rfl⟩ := macroName?_eq_some hname
      exact directed_conditional macros t target more hu false
    · exact .refused _
  · exact .closed
  · exact .refused _

namespace Directed

variable {macros : Macros} {t : Token} {rest : List Token} {effect : DirectiveEffect}

/-- A directive leaves the rest. -/
theorem rest_suffix (h : Directed macros t rest effect) : effect.rest <:+ rest := by
  cases h with
  | refused | closed => exact afterLine_suffix _
  | defined | removed | entered => exact (afterLine_suffix _).trans (suffix_cons _ _)
  | skipped =>
    exact ((skipRegion_suffix _).trans (afterLine_suffix _)).trans (suffix_cons _ _)

private theorem isStream_rest (h : Directed macros t rest effect) (hrest : IsStream rest) :
    IsStream effect.rest := by
  have hname {u : Token} {more : List Token} {target : String} (hu : u.kind = .name target)
      (hstream : IsStream (u :: more)) : IsStream more := by
    refine hstream.of_cons ?_
    rw [Token.isEof, hu]
    rfl
  cases h with
  | refused | closed => exact isStream_afterLine hrest
  | defined target hu | removed target hu | entered target hu =>
    exact isStream_afterLine (hname hu hrest)
  | skipped target hu => exact isStream_skipRegion (isStream_afterLine (hname hu hrest))

private theorem diagnostics_placed (hmerge : ∀ {a b : Span}, P a → P b → P (a.merge b))
    (h : Directed macros t rest effect) (ht : P t.span) (hrest : ∀ u ∈ rest, P u.span) :
    ∀ d ∈ effect.diagnostics, (∃ fault, d.cause = .directive fault) ∧ P d.span := by
  cases h with
  | refused fault => exact forall_mem_singleton.mpr ⟨⟨fault, rfl⟩, ht⟩
  | closed | removed | entered => exact forall_mem_nil _
  | @defined u more target hu =>
    intro d hd
    dsimp only at hd
    unfold redefinition at hd
    split at hd
    · cases hd
    · rw [mem_singleton.mp hd]
      exact ⟨⟨_, rfl⟩, hmerge ht (hrest u mem_cons_self)⟩
  | skipped target hu faults =>
    intro d hd
    obtain ⟨fault, -, rfl⟩ := mem_map.mp hd
    exact ⟨⟨fault, rfl⟩, ht⟩

end Directed

/-! ### Expansion -/

namespace Macros

/-- Whether the kinds of all tokens in replacements of macros have a property. -/
def Holds (K : Token.Kind → Prop) (macros : Macros) : Prop :=
  ∀ name m, macros.get? name = some m → ∀ t ∈ m.replacement, K t.kind

/-- Whether no replacement of a macro holds the end of the input. -/
abbrev EofFree (macros : Macros) : Prop := macros.Holds fun kind => (kind == .eof) = false

variable {macros : Macros} {K : Token.Kind → Prop}

private theorem Holds.insert (h : macros.Holds K) {m : Macro} (hm : ∀ t ∈ m.replacement, K t.kind)
    (name : String) : Holds K (macros.insert name m) := by
  intro other m' hget
  rw [Table.get?_insert] at hget
  split at hget
  · cases hget
    exact hm
  · exact h other m' hget

private theorem Holds.erase (h : macros.Holds K) (name : String) : Holds K (macros.erase name) := by
  intro other m hget
  rw [Table.get?_erase] at hget
  split at hget
  · cases hget
  · exact h other m hget

private theorem Holds.directed (h : macros.Holds K) {rest : List Token} {effect : DirectiveEffect}
    (heffect : Directed macros t rest effect) (hrest : ∀ u ∈ rest, (!u.isBreak) → K u.kind) :
    effect.macros.Holds K := by
  cases heffect with
  | refused | closed | entered | skipped => exact h
  | removed => exact h.erase _
  | @defined u more target hu =>
    refine h.insert (fun r hr => hrest r (.tail _ (takeWhile_subset _ hr)) ?_) target
    exact mem_takeWhile_imp (p := fun t : Token => !t.isBreak) hr

/-- The macros that are defined before a source hold what scanning makes. -/
theorem holds_predefined (hK : ∀ {text : String} {tokens : List Token}, scanText text = .ok tokens →
      ∀ t ∈ tokens, (!t.isBreak) → K t.kind)
    (h : Macros.predefined specifications = .ok macros) : macros.Holds K := by
  have hgo (specifications : List String) (before : Macros) (hbefore : before.Holds K)
      (h : predefined.go before specifications = .ok macros) : macros.Holds K := by
    induction specifications generalizing before with
    | nil =>
      cases h
      exact hbefore
    | cons specification rest ih =>
      unfold predefined.go at h
      split at h
      · cases h
      · rename_i m hm
        refine ih _ (hbefore.insert (fun t ht => ?_) m.name) h
        unfold Macro.ofSpecification at hm
        dsimp only at hm
        split at hm
        · cases hm
        · rename_i tokens hscan
          rw [← Except.ok.inj hm] at ht
          have hmem := mem_filter.mp ht
          exact hK hscan t hmem.1 hmem.2
  exact hgo specifications .empty nofun h

private theorem isEof_of_not_isBreak (h : (!t.isBreak)) : t.isEof = false := by
  unfold Token.isBreak at h
  cases heof : t.isEof with
  | false => rfl
  | true => simp [heof] at h

/-- Predefined macros hold no end. -/
theorem eofFree_predefined (h : Macros.predefined specifications = .ok macros) : macros.EofFree :=
  holds_predefined (fun _ _ _ hplain => isEof_of_not_isBreak hplain) h

private theorem expandToken_of_isEof (ht : t.isEof) : macros.expandToken t = [t] := by
  unfold expandToken
  rw [beq_iff_eq.mp ht]

private theorem Holds.of_mem_expandToken (h : macros.Holds K) {u : Token} (ht : K t.kind)
    (hu : u ∈ macros.expandToken t) : K u.kind ∧ u.span = t.span := by
  unfold expandToken at hu
  split at hu
  · split at hu
    · rename_i m hget
      obtain ⟨r, hr, rfl⟩ := mem_map.mp hu
      exact ⟨h _ m hget r hr, rfl⟩
    · rw [mem_singleton.mp hu]
      exact ⟨ht, rfl⟩
  · rw [mem_singleton.mp hu]
    exact ⟨ht, rfl⟩

/-- The expansion of a stream is a stream: as every step passes a token, there are enough steps to
reach the end of the input, and no directive passes it. -/
theorem isStream_expandSteps (h : macros.EofFree) {steps : Nat} (htoks : IsStream tokens)
    (hsteps : tokens.length ≤ steps) : IsStream (macros.expandSteps steps tokens).tokens := by
  induction steps generalizing macros tokens with
  | zero => exact absurd (eq_nil_of_length_eq_zero (Nat.le_zero.mp hsteps)) htoks.ne_nil
  | succ steps ih =>
    cases tokens with
    | nil => exact absurd rfl htoks.ne_nil
    | cons t rest =>
      rw [length_cons] at hsteps
      unfold expandSteps
      split
      · rename_i name hkind
        have hplain : t.isEof = false := by
          rw [Token.isEof, hkind]
          rfl
        have heffect := macros.directed name t rest
        have hlen := heffect.rest_suffix.length_le
        exact ih (h.directed heffect fun _ _ => isEof_of_not_isBreak)
          (heffect.isStream_rest (htoks.of_cons hplain)) (by omega)
      · rcases htoks.cons_cases with ⟨heof, rfl⟩ | ⟨hplain, hrest⟩
        · -- The end of the input is the last token.
          have hnil : (macros.expandSteps steps []).tokens = [] := by
            cases steps <;> rfl
          dsimp only
          rw [hnil, expandToken_of_isEof heof]
          exact .singleton heof
        · exact (ih h hrest (by omega)).append fun u hu => (h.of_mem_expandToken hplain hu).1

/-- The expansion of tokens, and what is wrong with their directives, stands where the tokens do.
Its tokens are those of the source and of macros. -/
theorem Holds.expandSteps (hmerge : ∀ {a b : Span}, P a → P b → P (a.merge b)) (steps : Nat)
    (h : macros.Holds K) (htoks : ∀ t ∈ tokens, P t.span ∧ K t.kind) :
    (∀ t ∈ (macros.expandSteps steps tokens).tokens, P t.span ∧ K t.kind) ∧
      ∀ d ∈ (macros.expandSteps steps tokens).diagnostics, (∃ fault, d.cause = .directive fault) ∧
      P d.span := by
  induction steps generalizing macros tokens with
  | zero => exact ⟨forall_mem_nil _, forall_mem_nil _⟩
  | succ steps ih =>
    cases tokens with
    | nil => exact ⟨forall_mem_nil _, forall_mem_nil _⟩
    | cons t rest =>
      rw [forall_mem_cons] at htoks
      unfold Macros.expandSteps
      split
      · rename_i name _
        have heffect := macros.directed name t rest
        have hmacros := h.directed heffect fun u hu _ => (htoks.2 u hu).2
        obtain ⟨hmore, hdiagnostics⟩ :=
          ih hmacros fun u hu => htoks.2 u (heffect.rest_suffix.subset hu)
        have hfirst := heffect.diagnostics_placed hmerge htoks.1.1 fun u hu => (htoks.2 u hu).1
        exact ⟨hmore, forall_mem_append.mpr ⟨hfirst, hdiagnostics⟩⟩
      · obtain ⟨hmore, hdiagnostics⟩ := ih h htoks.2
        refine ⟨forall_mem_append.mpr ⟨fun u hu => ?_, hmore⟩, hdiagnostics⟩
        obtain ⟨hkind, hspan⟩ := h.of_mem_expandToken htoks.1.2 hu
        exact ⟨hspan ▸ htoks.1.1, hkind⟩

end Macros

/-- What a source that can be scanned is made of: a stream of tokens and macros before it. -/
theorem scanSource_eq_ok {defines : List String} {macros : Macros}
    (h : scanSource path defines source = .ok (macros, tokens)) :
    (scan path source).fault = none ∧ tokens = (scan path source).tokens ∧
      Macros.predefined defines = .ok macros := by
  unfold scanSource at h
  dsimp only at h
  split at h
  · cases h
  · rename_i hfault
    cases hmacros : Macros.predefined defines with
    | error d =>
      rw [hmacros] at h
      cases h
    | ok before =>
      rw [hmacros] at h
      cases h
      exact ⟨hfault, rfl, rfl⟩

end BlockScript
