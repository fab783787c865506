import BlockScript.Proofs.Streams

/-!
# Conditional regions

Directives are carried out from the first token to the last, and what carries over is the macros. So
whole lines are expanded first and what follows them afterwards, unless a region that is skipped
goes on past them. A conditional region is therefore the same as its lines, or as nothing, whichever
the macro says.

A macro that stands for nothing is not the same as an empty text: the line on which it is used has
its end among the tokens, also when nothing else is left of it.
-/

namespace BlockScript

open List

variable {macros : Macros} {front rest tokens : List Token} {t ending : Token}

/-- Whether a token is a directive. -/
def Token.isDirective (t : Token) : Bool :=
  match t.kind with
  | .directive _ => true
  | _ => false

/-! ### Lines -/

section Line

variable {line after : List Token} (hline : ∀ t ∈ line, t.isBreak = false) (hend : ending.isNewline)

include hline hend

private theorem lineTokens_append : lineTokens (line ++ ending :: after) = line := by
  rw [lineTokens, takeWhile_append_of_pos fun t ht => by simp [hline t ht]]
  simp [Token.isBreak, hend]

private theorem afterLine_append : afterLine (line ++ ending :: after) = after := by
  have hdrop : (line ++ ending :: after).dropWhile (!·.isBreak) = ending :: after := by
    rw [dropWhile_append_of_pos fun t ht => by simp [hline t ht]]
    simp [Token.isBreak, hend]
  rw [afterLine, hdrop]
  simp [hend]

end Line

/-- Whether tokens are whole lines before the end of the input. -/
structure WholeLines (tokens : List Token) : Prop where
  plain : ∀ t ∈ tokens, t.isEof = false
  ends : ∀ t ∈ tokens.getLast?, t.isNewline = true

namespace WholeLines

private theorem of_suffix (h : WholeLines tokens) (hrest : rest <:+ tokens) : WholeLines rest := by
  obtain ⟨before, rfl⟩ := hrest
  refine ⟨fun t ht => h.plain t (mem_append_right _ ht), fun t ht => h.ends t ?_⟩
  rw [getLast?_append, Option.mem_def.mp ht]
  rfl

private theorem of_cons (h : WholeLines (t :: rest)) :
    WholeLines rest := h.of_suffix (suffix_cons _ _)

private theorem ne_nil (h : WholeLines (t :: rest)) (ht : t.kind ≠ .newline) : rest ≠ [] := by
  rintro rfl
  exact ht (eq_of_beq (h.ends t rfl))

private theorem exists_line (h : WholeLines tokens) (hne : tokens ≠ []) :
    ∃ line ending after, tokens = line ++ ending :: after ∧ (∀ t ∈ line, t.isBreak = false) ∧
      ending.isNewline := by
  induction tokens with
  | nil => exact absurd rfl hne
  | cons t rest ih =>
    by_cases ht : t.kind = .newline
    · exact ⟨[], t, rest, rfl, by rintro _ ⟨⟩, beq_iff_eq.mpr ht⟩
    · obtain ⟨line, ending, after, rfl, hline, hending⟩ := ih h.of_cons (h.ne_nil ht)
      refine ⟨t :: line, ending, after, rfl, forall_mem_cons.mpr ⟨?_, hline⟩, hending⟩
      rw [Token.isBreak, h.plain t mem_cons_self, Bool.or_false]
      exact beq_eq_false_iff_ne.mpr ht

private theorem afterLine_append (h : WholeLines tokens) (hne : tokens ≠ []) (rest : List Token) :
    afterLine (tokens ++ rest) = afterLine tokens ++ rest := by
  obtain ⟨line, ending, after, rfl, hline, hending⟩ := h.exists_line hne
  rw [append_assoc, cons_append, BlockScript.afterLine_append hline hending,
    BlockScript.afterLine_append hline hending]

private theorem lineTokens_append (h : WholeLines tokens) (hne : tokens ≠ []) (rest : List Token) :
    lineTokens (tokens ++ rest) = lineTokens tokens := by
  obtain ⟨line, ending, after, rfl, hline, hending⟩ := h.exists_line hne
  rw [append_assoc, cons_append, BlockScript.lineTokens_append hline hending,
    BlockScript.lineTokens_append hline hending]

private theorem skipRegion_append (h : WholeLines tokens) (hfound : (skipRegion tokens).1)
    (rest : List Token) : skipRegion (tokens ++ rest) = (true, (skipRegion tokens).2 ++ rest) := by
  fun_induction skipRegion tokens with
  | case1 => cases hfound
  | case2 t more hkind =>
    rw [cons_append, skipRegion, if_pos hkind,
      h.of_cons.afterLine_append (h.ne_nil (by simp [hkind]))]
  | case3 => cases hfound
  | case4 t more hkind heof ih =>
    rw [cons_append, skipRegion, if_neg hkind, if_neg heof]
    exact ih h.of_cons hfound

end WholeLines

/-- One expansion after another. -/
def Expansion.followedBy (first second : Expansion) : Expansion :=
  ⟨first.tokens ++ second.tokens, second.macros, first.diagnostics ++ second.diagnostics⟩

/-- Whether no diagnostic says that a region which is skipped has no end. -/
def Closed (diagnostics : List Diagnostic) : Prop :=
  ∀ d ∈ diagnostics, ∀ opener, d.cause ≠ .directive (.missingEnd opener)

private theorem closed_append {first second : List Diagnostic} :
    Closed (first ++ second) ↔ Closed first ∧ Closed second :=
  forall_mem_append

private theorem Expansion.followedBy_assoc (a b c : Expansion) :
    (a.followedBy b).followedBy c = a.followedBy (b.followedBy c) := by
  simp [followedBy]

namespace Macros

private theorem expandSteps_nil (steps : Nat) : macros.expandSteps steps [] = ⟨[], macros, []⟩ := by
  cases steps <;> rfl

private theorem expandSteps_cons (ht : t.isDirective = false) (steps : Nat) (rest : List Token) :
    macros.expandSteps (steps + 1) (t :: rest) = { macros.expandSteps steps rest with
        tokens := macros.expandToken t ++ (macros.expandSteps steps rest).tokens } := by
  rw [expandSteps]
  cases hkind : t.kind with
  | directive name =>
    rw [Token.isDirective, hkind] at ht
    cases ht
  | _ => rfl

private theorem expandSteps_eq_expand {steps : Nat} (hsteps : tokens.length ≤ steps) :
    macros.expandSteps steps tokens = macros.expand tokens := by
  suffices ∀ (n m : Nat) (macros : Macros) (tokens : List Token), tokens.length ≤ n →
      tokens.length ≤ m →
      macros.expandSteps n tokens = macros.expandSteps m tokens from this _ _ _ _ hsteps le_rfl
  intro n
  induction n with
  | zero =>
    intro m macros tokens hn hm
    rw [eq_nil_of_length_eq_zero (Nat.le_zero.mp hn), expandSteps_nil, expandSteps_nil]
  | succ n ih =>
    intro m macros tokens hn hm
    cases tokens with
    | nil => rw [expandSteps_nil, expandSteps_nil]
    | cons t rest =>
      rw [length_cons] at hn hm
      obtain ⟨m, rfl⟩ : ∃ k, m = k + 1 := ⟨m - 1, by omega⟩
      unfold expandSteps
      split
      · rename_i name _
        have hlen := (macros.directed name t rest).rest_suffix.length_le
        dsimp only
        rw [ih m (macros.direct name t rest).macros _ (by omega) (by omega)]
      · dsimp only
        rw [ih m macros rest (by omega) (by omega)]

private theorem expand_token (ht : t.isDirective = false) (rest : List Token) :
    macros.expand (t :: rest) = .followedBy ⟨macros.expandToken t, macros, []⟩
    (macros.expand rest) :=
  expandSteps_cons ht _ _

variable {name : String}

private theorem expand_directive (hkind : t.kind = .directive name) (rest : List Token) :
    macros.expand (t :: rest) = .followedBy
      ⟨[], (macros.direct name t rest).macros, (macros.direct name t rest).diagnostics⟩
      ((macros.direct name t rest).macros.expand (macros.direct name t rest).rest) := by
  have hlen := (macros.directed name t rest).rest_suffix.length_le
  rw [← expandSteps_eq_expand hlen, expand, length_cons, expandSteps]
  simp only [hkind]
  rfl

private theorem direct_append (h : WholeLines tokens) (hne : tokens ≠ []) (name : String)
    (hclosed : Closed (macros.direct name t tokens).diagnostics) (rest : List Token) :
    macros.direct name t (tokens ++ rest) =
      { macros.direct name t tokens with rest := (macros.direct name t tokens).rest ++ rest } := by
  obtain ⟨first, more, rfl⟩ := exists_cons_of_ne_nil hne
  have hrefused := h.afterLine_append hne rest
  rw [cons_append] at hrefused ⊢
  have hname : macroName? (first :: (more ++ rest)) = macroName? (first :: more) := rfl
  cases hfirst : macroName? (first :: more) with
  | none =>
    rw [hfirst] at hname
    unfold direct
    simp only [hname, hfirst, hrefused]
    split <;> rfl
  | some found =>
    obtain ⟨target, span⟩ := found
    obtain ⟨u, _, heq, hkind, -⟩ := macroName?_eq_some hfirst
    cases heq
    have hmore := h.ne_nil (by simp [hkind])
    have hafter := h.of_cons.afterLine_append hmore rest
    have hline := h.of_cons.lineTokens_append hmore rest
    have hlines := h.of_cons.of_suffix (afterLine_suffix more)
    rw [hfirst] at hname
    unfold direct at hclosed ⊢
    simp only [hname, hfirst, hrefused, drop_succ_cons, drop_zero, hafter, hline] at hclosed ⊢
    have hskip := fun hfound => hlines.skipRegion_append hfound rest
    generalize skipRegion (afterLine more) = region at hclosed hskip ⊢
    obtain ⟨closed, left⟩ := region
    split <;> try rfl
    -- The two conditionals: a region that is skipped has its end, or there is a fault.
    all_goals
      by_cases hwanted : macros.contains target
      all_goals simp only [hwanted, BEq.rfl, reduceCtorEq, ↓reduceIte, beq_iff_eq] at hclosed ⊢
      cases closed with
      | false => exact absurd rfl (hclosed _ mem_cons_self _)
      | true => rw [hskip rfl]

private theorem expand_append (h : WholeLines front)
    (hclosed : Closed (macros.expand front).diagnostics) (rest : List Token) :
    macros.expand (front ++ rest) = (macros.expand front).followedBy
      ((macros.expand front).macros.expand rest) := by
  induction hlen : front.length using Nat.strong_induction_on generalizing macros front with
  | _ n ih =>
    cases front with
    | nil => rfl
    | cons t more =>
      subst hlen
      cases hkind : t.kind with
      | directive name =>
        have hsuffix := (macros.directed name t more).rest_suffix
        rw [expand_directive hkind] at hclosed
        obtain ⟨hfirst, hmore⟩ := closed_append.mp hclosed
        rw [cons_append, expand_directive hkind, expand_directive hkind,
          direct_append h.of_cons (h.ne_nil (by simp [hkind])) name hfirst,
          ih _ (Nat.lt_succ_of_le hsuffix.length_le) (h.of_cons.of_suffix hsuffix) hmore rfl,
          Expansion.followedBy_assoc]
        rfl
      | _ =>
        have ht : t.isDirective = false := by rw [Token.isDirective, hkind]
        rw [expand_token ht] at hclosed
        rw [cons_append, expand_token ht, expand_token ht,
          ih _ (Nat.lt_succ_self _) h.of_cons (closed_append.mp hclosed).2 rfl,
          Expansion.followedBy_assoc]
        rfl

/-! ### A region -/

private theorem closed_direct (hifdef : name ≠ "ifdef") (hifndef : name ≠ "ifndef") :
    Closed (macros.direct name t rest).diagnostics := by
  unfold direct
  cases macroName? rest with
  | none =>
    dsimp only
    split <;> simp [Closed, Diagnostic.directive]
  | some found =>
    dsimp only
    split
    · unfold redefinition
      cases macros.get? found.1 <;> simp [Closed, Diagnostic.directive]
    all_goals simp [Closed, Diagnostic.directive] at *

private theorem closed_expand
    (hplain : ∀ t ∈ tokens, t.kind ≠ .directive "ifdef" ∧ t.kind ≠ .directive "ifndef") :
    Closed (macros.expand tokens).diagnostics := by
  induction hlen : tokens.length using Nat.strong_induction_on generalizing macros tokens with
  | _ n ih =>
    cases tokens with
    | nil => rintro d ⟨⟩
    | cons t more =>
      subst hlen
      obtain ⟨ht, hmore⟩ := forall_mem_cons.mp hplain
      cases hkind : t.kind with
      | directive name =>
        have hsuffix := (macros.directed name t more).rest_suffix
        rw [expand_directive hkind]
        refine closed_append.mpr ⟨closed_direct ?_ ?_, ?_⟩
        · exact fun hname => ht.1 (hname ▸ hkind)
        · exact fun hname => ht.2 (hname ▸ hkind)
        · exact ih _ (Nat.lt_succ_of_le hsuffix.length_le)
            (fun u hu => hmore u (hsuffix.mem hu)) rfl
      | _ =>
        rw [expand_token (by rw [Token.isDirective, hkind])]
        exact ih _ (Nat.lt_succ_self _) hmore rfl

private theorem skipRegion_region {region : List Token} {closer : Token}
    (hregion : WholeLines region) (hplain : ∀ t ∈ region, t.kind ≠ .directive "endif")
    (hcloser : closer.kind = .directive "endif") (hending : ending.isNewline) :
    skipRegion (region ++ closer :: ending :: rest) = (true, rest) := by
  induction region with
  | nil => rw [nil_append, skipRegion, if_pos hcloser, afterLine_cons, if_pos hending]
  | cons t more ih =>
    obtain ⟨ht, hmore⟩ := forall_mem_cons.mp hplain
    rw [cons_append, skipRegion, if_neg ht, hregion.plain t mem_cons_self,
      if_neg Bool.false_ne_true]
    exact ih hregion.of_cons hmore

private theorem direct_conditional {wanted : Bool} {target : Token} {body after : List Token}
    (htarget : target.kind = .name name) (hending : ending.isNewline)
    (hskip : skipRegion body = (true, after)) :
    macros.direct (if wanted then "ifdef" else "ifndef") t (target :: ending :: body) =
      ⟨macros, [], if macros.contains name = wanted then body else after⟩ := by
  have hname :
    macroName? (target :: ending :: body) = some (name, target.span) := by rw [macroName?, htarget]
  have hafter : afterLine (ending :: body) = body := by rw [afterLine_cons, if_pos hending]
  cases wanted
  all_goals
    simp only [direct, hname, drop_succ_cons, drop_zero, hafter, hskip, ↓reduceIte,
      Bool.false_eq_true, beq_iff_eq]
    split <;> rfl

/-- The directives that begin and end regions. -/
def conditionals : List Token.Kind := [.directive "ifdef", .directive "ifndef", .directive "endif"]

/-- A conditional region is the same as its lines where the macro is defined, or not defined, as the
region wants it. Otherwise it is the same as nothing: directives and names in it have no effect. -/
theorem expand_conditional {region : List Token} {opener target ending closer closing : Token}
    {name : String} (wanted : Bool) (hfront : WholeLines front)
    (hclosed : Closed (macros.expand front).diagnostics) (hregion : WholeLines region)
    (hplain : ∀ t ∈ region, t.kind ∉ conditionals)
    (hopener : opener.kind = .directive (if wanted then "ifdef" else "ifndef"))
    (htarget : target.kind = .name name) (hending : ending.isNewline = true)
    (hcloser : closer.kind = .directive "endif") (hclosing : closing.isNewline = true)
    (rest : List Token) :
    macros.expand (front ++ [opener, target, ending] ++ region ++ [closer, closing] ++ rest) =
      macros.expand
        (front ++ (if (macros.expand front).macros.contains name = wanted then region else []) ++
        rest) := by
  simp only [conditionals, mem_cons, not_mem_nil, or_false, not_or] at hplain
  have hkept : Closed ((macros.expand front).macros.expand region).diagnostics :=
    closed_expand fun t ht => ⟨(hplain t ht).1, (hplain t ht).2.1⟩
  have hskip : skipRegion (region ++ closer :: closing :: rest) = (true, rest) :=
    skipRegion_region hregion (fun t ht => (hplain t ht).2.2) hcloser hclosing
  simp only [append_assoc, cons_append, nil_append]
  rw [expand_append hfront hclosed, expand_append hfront hclosed]
  congr 1
  generalize (macros.expand front).macros = table at hkept ⊢
  have hend (macros : Macros) : macros.expand (closer :: closing :: rest) = macros.expand rest := by
    rw [expand_directive hcloser]
    simp only [direct, afterLine_cons, if_pos hclosing]
    rfl
  rw [expand_directive hopener, direct_conditional htarget hending hskip]
  by_cases hwanted : table.contains name = wanted
  · rw [if_pos hwanted, if_pos hwanted, expand_append hregion hkept,
      expand_append hregion hkept, hend]
    rfl
  · rw [if_neg hwanted, if_neg hwanted]
    rfl

/-- A token of a line, by its column. -/
def tokenAt (number : Nat) (kind : Token.Kind) (lexeme : String) (column : Nat) : Token :=
  ⟨kind, lexeme, ⟨⟨number, column⟩, ⟨number, column + lexeme.length⟩⟩, 0, "main.bot"⟩

/-- A region that is kept removes the macro it asks for, after a region that is skipped. -/
def guardedRemoval : List Token :=
  (scan "main.bot" (Source.ofText
    "#ifdef M\n#define N 4\n#endif\n#define N 5\n#ifdef N\n#undef N\n#endif\nN\n")).tokens

/-- The region that is kept counts. -/
theorem expand_conditional_guardedRemoval :
    let front := guardedRemoval.take 13
    let region := (guardedRemoval.drop 16).take 3
    let rest := guardedRemoval.drop 21
    (expand .empty guardedRemoval).tokens.map (·.kind) = [.name "N", .newline, .eof] ∧
      expand .empty guardedRemoval = expand .empty (front ++ region ++ rest) := by
  intro front region rest
  have hclosed : Closed (expand .empty front).diagnostics := by
    rw [show (expand .empty front).diagnostics = [] by decide +kernel]
    rintro d ⟨⟩
  have hfront : WholeLines front := ⟨by decide +kernel, by decide +kernel⟩
  have hregion : WholeLines region := ⟨by decide +kernel, by decide +kernel⟩
  refine ⟨by decide +kernel, ?_⟩
  calc expand .empty guardedRemoval
    _ = expand .empty (front ++ [tokenAt 5 (.directive "ifdef") "#ifdef" 1,
          tokenAt 5 (.name "N") "N" 8, tokenAt 5 .newline "" 9] ++ region ++
          [tokenAt 7 (.directive "endif") "#endif" 1, tokenAt 7 .newline "" 7] ++ rest) :=
        congrArg (expand .empty) (by decide +kernel)
    _ = expand .empty
        (front ++ (if (expand .empty front).macros.contains "N" = true then region else []) ++
        rest) :=
        expand_conditional true hfront hclosed hregion (by decide +kernel) rfl rfl rfl rfl rfl rest
    _ = expand .empty (front ++ region ++ rest) := by rw [if_pos (by decide +kernel)]

end Macros

/-- Within a body the end of a line of which nothing is left stays behind, and the body is at fault.
Where the line is empty, nothing is. -/
theorem compile_nothingInBody :
    (compile "main.bot" Robot.catalog noPictures {}
      (Source.ofText "#define NOP\n@start:\n  NOP\n  display.show(1)\n")).toOption.isNone ∧
    (compile "main.bot" Robot.catalog noPictures {}
      (Source.ofText "\n@start:\n  \n  display.show(1)\n")).toOption.isSome := by
  decide +kernel

end BlockScript
