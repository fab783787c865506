import BlockScript.Proofs.AnalyzedPlaces
import BlockScript.Proofs.Streams
import BlockScript.Proofs.Suited
import BlockScript.Proofs.TokenPlaces

/-!
# Faithful expressions

In the graph of a program that compiles, every expression can be read back from the slot that it is
bound to. No name of a single token has a dot in it, and the expansion of macros only copies tokens.
So no constant has the name of a property that is a text, as these are dotted. Every text stays a
text in folding, and menus and fields show what the arguments of the folded program stand for.
-/

namespace BlockScript

section

variable {c : Char} {path : String} {source : Source}

open List

/-- Whether a name has no dot in it. -/
def PlainName (name : String) : Prop := '.' ∉ name.toList

instance (name : String) : Decidable (PlainName name) := inferInstanceAs (Decidable (¬ _))

private theorem kind_of_paired? {kinds : Token.Kind × Token.Kind} (h : Sign.paired? c = some kinds)
    (name : String) : kinds.1 ≠ .name name ∧ kinds.2 ≠ .name name := by
  unfold Sign.paired? at h
  split at h <;> cases h <;> exact ⟨nofun, nofun⟩

private theorem eq_of_ofWord {word name : String} (h : Token.Kind.ofWord word = .name name) :
    word = name := by
  unfold Token.Kind.ofWord at h
  split at h
  · cases h
  · split at h
    · cases h
    · split at h
      · cases h
      · exact Token.Kind.name.inj h

private theorem IsLexeme.plainName {cs : List Char} {name : String}
    (h : IsLexeme c (.name name) cs) : PlainName name := by
  generalize hkind : Token.Kind.name name = kind at h
  cases h with
  | alone hpaired => exact absurd hkind.symm (kind_of_paired? hpaired name).1
  | withEq hpaired => exact absurd hkind.symm (kind_of_paired? hpaired name).2
  | word hstart hparts =>
    unfold PlainName
    rw [← eq_of_ofWord hkind.symm, String.toList_ofList, mem_cons, not_or]
    refine ⟨fun hdot => ?_, fun hmem => absurd (hparts _ hmem) (by decide)⟩
    rw [← hdot] at hstart
    exact absurd hstart (by decide)
  | _ => cases hkind

private theorem CutLines.exists_cut_of_mem {mark : Option Char} (h : CutLines depth mark lines)
    (hps : ps ∈ lines) : ∃ depth depth', Cut depth ps depth' := by
  induction h with
  | nil => cases hps
  | cons hcut _ _ ih =>
    rcases mem_cons.mp hps with rfl | hps
    · exact ⟨_, _, hcut⟩
    · exact ih hps

private theorem named_of_mem_scan (hfault : (scan path source).fault = none) :
    ∀ t ∈ (scan path source).tokens, t.Named PlainName := by
  obtain ⟨lines, -, hlines, hscan⟩ := exists_cutLines_of_scan hfault
  rw [hscan]
  intro t ht name hname
  rcases (exists_of_mem_tokensOf ht).2 with hbreak | ⟨i, ps, hps, ht⟩
  · simp [Token.isBreak, Token.isNewline, Token.isEof, hname] at hbreak
  · obtain ⟨before, kind, c, cs, after, rfl, rfl⟩ := LineContext.exists_of_mem_tokens _ ht
    obtain rfl : kind = .name name := hname
    obtain ⟨depth, depth', hcut⟩ := hlines.exists_cut_of_mem (mem_of_getElem? hps)
    exact (hcut.isLexeme_of_mem mem_append_cons_self).plainName

private theorem named_of_mem_scanText {text : String} {tokens : List Token}
    (h : scanText text = .ok tokens) : ∀ t ∈ tokens, t.Named PlainName := by
  unfold scanText at h
  dsimp only at h
  split at h
  · cases h
  · rename_i hfault
    exact Except.ok.inj h ▸ named_of_mem_scan hfault

private theorem plainName_of_stagesOf {catalog : Catalog} {pictures : Pictures}
    {defines : List String} {options : AnalysisOptions} {st : Stages}
    (h : stagesOf path catalog pictures defines options source = .ok st) :
    ∀ name ∈ Stmt.constantsAll st.analysis.program.statements, PlainName name := by
  obtain ⟨macros, tokens, hscan, rfl⟩ := stagesOf_eq_ok_iff.mp h
  obtain ⟨hfault, rfl, hmacros⟩ := scanSource_eq_ok hscan
  have hpredefined : macros.Holds fun kind => ∀ name, kind = .name name → PlainName name :=
    Macros.holds_predefined (fun hscan t ht _ => named_of_mem_scanText hscan t ht) hmacros
  have hscanned : ∀ t ∈ (scan path source).tokens, True ∧ t.Named PlainName :=
    fun t ht => ⟨trivial, named_of_mem_scan hfault t ht⟩
  have htoks := (hpredefined.expandSteps (P := fun _ => True) (fun _ _ => trivial)
    (scan path source).tokens.length hscanned).1
  have hparsed := (parse_of (P := fun _ => True) (fun _ _ => trivial) htoks trivial).1
  exact (analyze_of catalog options fun item hitem => (hparsed item hitem).2).1.constants

end

/-- Whether the properties that are held as texts have dots in their names. -/
def Catalog.TextsDotted (catalog : Catalog) : Prop :=
  ∀ entry ∈ catalog.reporters.entries, ∀ signature ∈ entry.2.signatures,
    signature.result.map DataType.held = some .string → ¬ PlainName entry.1

private theorem Robot.textsDotted : Robot.catalog.TextsDotted := by
  unfold Catalog.TextsDotted
  decide

private theorem Finished.hidesFittingly_textIfSo {w : Finished} (hdotted : w.catalog.TextsDotted)
    (hsupp : ∀ use, w.resolved use → w.Supports use)
    (hplain : ∀ name, w.defs.lookup .constant name ≠ none → PlainName name) :
    w.HidesFittingly Value.TextIfSo := by
  intro use hden signature type hent hconst value hheld
  have hhas := (hsupp use hden).has
  rw [hent] at hhas
  obtain ⟨signature', hsig, hres⟩ := Option.bind_eq_some_iff.mp hhas.2
  obtain ⟨b, hget, hhead⟩ := Option.bind_eq_some_iff.mp hsig
  obtain ⟨type, htype, heq⟩ := Option.map_eq_some_iff.mp hres
  cases heq
  exact absurd (hplain use.name hconst)
    (hdotted _ (Table.mem_entries_of_get? hget) signature (List.mem_of_head? hhead)
      (by rw [htype, Option.map_some, hheld]))

/-- Whether the block with a number has terms in its slots, as they are read back from the graph. -/
def Graph.Carries (g : Graph) (catalog : Catalog) (terms : List (Slot × Option Term)) (id : Nat) :
    Prop :=
  ∃ node, g.nodes[id]? = some node ∧ node.Has (g.read catalog) terms

private theorem Stmt.mem_constantsAll {name : String} :
    name ∈ constantsAll stmts ↔ ∃ stmt ∈ stmts, name ∈ stmt.constants := by
  induction stmts with
  | nil => simp [constantsAll]
  | cons first rest ih => simp [constantsAll, ih]

private theorem Robot.slotsTyped : Robot.catalog.SlotsTyped := by
  unfold Catalog.SlotsTyped
  decide

/-- The arguments in a program that is let pass suit their slots after folding. -/
theorem Stages.Clean.suited {path : String} {pictures : Pictures} {defines : List String}
    {options : AnalysisOptions} {source : Source} {st : Stages}
    (hst : stagesOf path Robot.catalog pictures defines options source = .ok st)
    (hclean : st.Clean) : ∀ item ∈ st.folding.program.statements,
      (st.lowerContext Robot.catalog).SuitedStmt item := by
  have hplain := plainName_of_stagesOf hst
  obtain ⟨macros, tokens, _, rfl⟩ := stagesOf_eq_ok_iff.mp hst
  obtain ⟨hacc, hfolding⟩ := hclean.accepts Robot.complete
  have hconsts (name : String) (hname : (finished Robot.catalog options
      (parse (macros.expand tokens).tokens).program).defs.lookup .constant name ≠ none) :
      PlainName name := by
    refine hplain name ?_
    rcases List.mem_append.mp (hacc.constants name hname) with hmem | hmem
    all_goals
      obtain ⟨stmt, hstmt, hname⟩ := Stmt.mem_constantsAll.mp hmem
      exact Stmt.mem_constantsAll.mpr ⟨stmt, List.mem_of_mem_filter hstmt, hname⟩
  exact hacc.suited_fold Robot.slotsTyped Robot.complete ⟨Value.fitting_textIfSo,
    Robot.computesNumbers, hacc.supports, hacc.distinct,
    Finished.hidesFittingly_textIfSo Robot.textsDotted hacc.supports hconsts⟩ hfolding

/-- Expressions of a program that is compiled for the robot are read back from the graph. The block
of every statement in a body has the expressions of the statement in its slots, with what they are
combined with in an assignment, and the first block of the script of a handler has its parameter:
read back, each is the normal form of the folded expression. -/
theorem compile_reads_back {path : String} {pictures : Pictures} {options : CompileOptions}
    {source : Source} {result : Compilation}
    (h : compile path Robot.catalog pictures options source = .ok result) :
    ∃ st, stagesOf path Robot.catalog pictures options.defines options.analysis source = .ok st ∧
      let c := st.lowerContext Robot.catalog
      let program := st.folding.program
      List.Forall₂ (fun item => result.graph.Carries Robot.catalog (c.headTerms item))
        program.scripts result.graph.tops ∧
      ∀ c' body start, result.graph.BodyAt c program c' body start →
        ∃ ids, result.graph.IsChain start ids ∧
          List.Forall₂ (fun stmt => result.graph.Carries Robot.catalog (c'.terms stmt))
            (c'.emitted body) ids := by
  obtain ⟨st, hst, hclean, hlow, hblocks⟩ := blocks_of_compile h
  have hsuit := hclean.suited hst
  rw [hblocks]
  refine ⟨st, hst, List.forall₂_iff_zip.mpr ?_, fun c' body start hbody => ?_⟩
  · have hheads := Graph.forall₂_heads_tops hlow
    refine ⟨hheads.length_eq, fun {item top} hscript => ?_⟩
    obtain ⟨_, _, node, hnode, _⟩ := List.forall₂_zip hheads hscript
    exact ⟨node, hnode, Graph.has_headTerms hlow Robot.legible hsuit hscript hnode⟩
  · obtain ⟨ids, hchain, hids⟩ := hbody.chain hlow
    refine ⟨ids, hchain, List.forall₂_iff_zip.mpr ⟨hids.length_eq, fun {stmt id} hstmt => ?_⟩⟩
    obtain ⟨_, _, node, hnode, _⟩ := List.forall₂_zip hids hstmt
    exact ⟨node, hnode, hbody.has_terms hlow Robot.legible Robot.complete hsuit hchain hstmt hnode⟩

/-- A program with a constant, a dotted name, a sum of texts, a cast and a handler with a
parameter. -/
def scaledGauge : Source :=
  Source.ofText <| "const gap = 2\nvar n = 0\n@button \"a\":\n  drive.move((n * gap) + timer)\n" ++
    "  display.show(sensor.color + string(n))\n"

/-- Its slots are read back. -/
theorem compile_reads_back_scaledGauge :
    ∃ result st, compile "main.bot" Robot.catalog noPictures {} scaledGauge = .ok result ∧
      stagesOf "main.bot" Robot.catalog noPictures [] {} scaledGauge = .ok st ∧
      result.graph.tops.length = 2 ∧
      List.Forall₂
        (fun item => result.graph.Carries Robot.catalog
          ((st.lowerContext Robot.catalog).headTerms item))
        st.folding.program.scripts result.graph.tops ∧
      ∀ c' body start,
        result.graph.BodyAt (st.lowerContext Robot.catalog) st.folding.program c' body start →
        ∃ ids, result.graph.IsChain start ids ∧
          List.Forall₂ (fun stmt => result.graph.Carries Robot.catalog (c'.terms stmt))
            (c'.emitted body) ids := by
  have hany : (compile "main.bot" Robot.catalog noPictures {} scaledGauge).toOption.any
      (·.graph.tops.length == 2) = true := by decide +kernel
  obtain ⟨result, hres, hlen⟩ := exists_of_toOption_any hany
  obtain ⟨st, hst, hheads, hbodies⟩ := compile_reads_back hres
  exact ⟨result, st, hres, hst, beq_iff_eq.mp hlen, hheads, hbodies⟩

end BlockScript
