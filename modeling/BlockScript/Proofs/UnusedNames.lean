import BlockScript.Proofs.DiagnosticPlaces
import BlockScript.Proofs.UniqueNames

/-!
# Unused declarations

The definitions that the analysis returns list what is not marked as used, in the order of the
places. Where the analysis reports nothing, the marks are those of the uses in the program, so the
warnings tell what the program declares and never uses.
-/

namespace BlockScript

open List

namespace Definitions

variable {d : Definitions} {kind : DeclarationKind} {name : String} {span : Span} {used : Bool}

private theorem filter_unusedValues {α : Type} {t : Table String α} (hkeys : t.keys.Nodup)
    {nameOf : α → String} (hnamed : ∀ e ∈ t.entries, nameOf e.2 = e.1) (spanOf : α → Span)
    (usedOf : α → Bool) :
    ((t.values.filter (!usedOf ·)).map fun v => (kind, nameOf v, spanOf v)).filter (·.2.1 = name) =
      (((t.get? name).map fun v => (spanOf v, usedOf v)).toList.filter (!·.2)).map fun p =>
      (kind, name, p.1) := by
  obtain ⟨entries⟩ := t
  induction entries with
  | nil => rfl
  | cons entry rest ih =>
    obtain ⟨hnot, hkeys⟩ := nodup_cons.mp hkeys
    obtain ⟨hentry, hrest⟩ := forall_mem_cons.mp hnamed
    have hrest := ih hkeys hrest
    have hvalues : (Table.mk (entry :: rest)).values = entry.2 :: (Table.mk rest).values := rfl
    have hget : (Table.mk (entry :: rest)).get? name =
        if entry.1 = name then some entry.2 else (Table.mk rest).get? name := rfl
    rw [hvalues, hget, filter_cons]
    by_cases hname : entry.1 = name
    · rw [Table.get?_eq_none_iff.mpr (hname ▸ hnot)] at hrest
      cases hused : usedOf entry.2 <;> simp [hused, hname, hentry, hrest]
    · cases hused : usedOf entry.2 <;> simp [hname, hentry, hrest]

private theorem WellFormed.filter_unused (hwell : d.WellFormed) (h : d.Holds kind name span used) :
    d.unused.filter (·.2.1 = name) = if used then [] else [(kind, name, span)] := by
  have hnodup := hwell.nodup
  have hnamed := hwell.named
  simp only [keys_eq, nodup_append, keysOf] at hnodup
  simp only [keyed, forall_mem_append, forall_mem_map] at hnamed
  have hfilter :
      d.unusedByKind.filter (·.2.1 = name) = if used then [] else [(kind, name, span)] := by
    unfold unusedByKind
    simp only [filter_append]
    rw [filter_unusedValues hnodup.1.1.1.1 hnamed.1.1.1.1,
      filter_unusedValues hnodup.1.1.1.2.1 hnamed.1.1.1.2,
      filter_unusedValues hnodup.1.1.2.1 hnamed.1.1.2, filter_unusedValues hnodup.1.2.1 hnamed.1.2,
      filter_unusedValues hnodup.2.1 hnamed.2]
    change (((d.row? .variable name).toList.filter (!·.2)).map _ ++
      ((d.row? .list name).toList.filter (!·.2)).map _ ++
      ((d.row? .constant name).toList.filter (!·.2)).map _ ++
      ((d.row? .function name).toList.filter (!·.2)).map _ ++
      ((d.row? .event name).toList.filter (!·.2)).map _) = _
    simp only [h _]
    cases kind <;> cases used <;> rfl
  have hperm : d.unused.filter (·.2.1 = name) ~ _ := (mergeSort_perm d.unusedByKind _).filter _
  rw [hfilter] at hperm
  cases used with
  | true => exact hperm.eq_nil
  | false => exact perm_singleton.mp hperm

private theorem pairwise_unused (d : Definitions) :
    d.unused.Pairwise fun a b => a.2.2.start.precedes b.2.2.start := by
  unfold unused
  refine pairwise_mergeSort ?_ ?_ _
  · exact fun _ _ _ => Position.precedes_trans
  · intro a b
    rw [Bool.or_eq_true, Position.precedes_iff, Position.precedes_iff]
    omega

end Definitions

/-- The name that a warning says is never used. -/
def Diagnostic.unusedName? (d : Diagnostic) : Option String :=
  match d.cause with
  | .analysis (.unused _ name) => some name
  | _ => none

open Analyzer

private theorem filter_unusedName? {options : AnalysisOptions} (hoption : options.warnUnused)
    (stmts : List Stmt) (d : Definitions) {p : Option String → Bool} (hp : p none = false) :
    (options.unreachableWarnings stmts ++ options.unusedWarnings d).filter (p ·.unusedName?) =
      (d.unused.filter (p <| some ·.2.1)).map unusedWarning := by
  have hunreachable : (options.unreachableWarnings stmts).filter (p ·.unusedName?) = [] := by
    unfold AnalysisOptions.unreachableWarnings
    split
    · simp [Stmt.unreachableWarning, Diagnostic.analysis, Diagnostic.unusedName?, hp]
    · rfl
  rw [filter_append, hunreachable, nil_append, AnalysisOptions.unusedWarnings, if_pos hoption,
    filter_map]
  rfl

/-- Where the analysis of a program as it is parsed reports nothing, and warnings of unused
declarations are on, there is one for each variable, list, constant, function and event of the
outermost level that no place of the program uses, and none for the others. They come in the order
of the places where the declarations start. -/
theorem analyze_warns_unused (options : AnalysisOptions) {program : Program}
    (hparsed : program.Parsed) :
    let result := analyze Robot.catalog options program
    options.warnUnused = true → result.errors = [] →
      (∀ item ∈ program.statements, ∀ kind name, item.declaration? = some (kind, name) →
        result.warnings.filter (·.unusedName? = some name) =
          if (Stmt.usagesAll [] program.statements).any (Usage.isOf kind name) then []
          else [unusedWarning (kind, name, item.span)]) ∧
      (result.warnings.filter (·.unusedName?.isSome)).Pairwise fun a b =>
        a.span.start.precedes b.span.start = true := by
  intro result hoption hclean
  have hwell : result.defs.WellFormed := wellFormed_analyze Robot.catalog options program
  obtain ⟨s, hrun, _, hdefs, _⟩ := clean_of_errors_analyze hclean
  have hwarnings : result.warnings = _ := warnings_analyze hparsed Robot.starts hclean
  rw [hwarnings]
  refine ⟨fun item hitem kind name hname => ?_, ?_⟩
  · have hholds := (takes_program hparsed.items hrun).2.2 item hitem kind name hname
    rw [← hdefs] at hholds
    have hnames := hwell.filter_unused hholds
    rw [filter_unusedName? hoption _ _ (p := (· = some name)) rfl]
    simp only [Option.some.injEq]
    rw [hnames]
    split <;> rfl
  · rw [filter_unusedName? hoption _ _ (p := Option.isSome) rfl, pairwise_map]
    exact result.defs.pairwise_unused.filter _

/-- A constant that is read only where a parameter hides it, and a variable that is only
combined. -/
def hiddenConstant : Source :=
  Source.ofText
    "var total = 0\nconst size = 4\nfunc grow(size: number):\n  total += size\n@start:\n  grow(2)\n"

/-- It is reported once. -/
theorem analyze_warns_unused_hiddenConstant :
    let program := (parse (scan "main.bot" hiddenConstant).tokens).program
    let result := analyze Robot.catalog {} program
    result.errors = [] ∧ ∃ item ∈ program.statements, item.declaration? = some (.constant, "size") ∧
      result.warnings.filter (·.unusedName? = some "size") =
      [unusedWarning (.constant, "size", item.span)] := by
  have hfacts : (let program := (parse (scan "main.bot" hiddenConstant).tokens).program
      (analyze Robot.catalog {} program).errors = [] ∧
        (Stmt.usagesAll [] program.statements).any (Usage.isOf .constant "size") = false ∧
        ∃ item ∈ program.statements, item.declaration? = some (.constant, "size")) := by
    decide +kernel
  have hwarns := analyze_warns_unused {} (parse_parsed (scan "main.bot" hiddenConstant).tokens)
  generalize (scan "main.bot" hiddenConstant).tokens = tokens at hfacts hwarns ⊢
  obtain ⟨herrs, hunused, item, hitem, hname⟩ := hfacts
  have hwarning := (hwarns rfl herrs).1 item hitem _ _ hname
  rw [hunused] at hwarning
  exact ⟨herrs, item, hitem, hname, hwarning⟩

end BlockScript
