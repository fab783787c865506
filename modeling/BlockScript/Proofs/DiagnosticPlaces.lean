import BlockScript.Proofs.AnalyzedPlaces
import BlockScript.Proofs.ItemBoundaries
import BlockScript.Proofs.Stages
import BlockScript.Proofs.Streams

/-!
# Diagnostics point into the file

The scanner stamps every token, and every fault of its own, with a part of the line that it reads,
or with the place after the last line. All later stages take the places of their diagnostics from
the tokens, one by one or merged. So a diagnostic always points into the file, or to its end.
-/

namespace BlockScript

open List

variable {before after : List String} {state : ScanState} (path : String) {column : Nat}

/-! ### Places in a file -/

/-- Whether a position is in a file with some lines, or just after it. -/
structure Position.In (lines : List String) (p : Position) : Prop where
  line_pos : 1 ≤ p.line
  column_pos : 1 ≤ p.column
  /-- It is not after the line that would come next. -/
  precedes_end : p.precedes ⟨lines.length + 1, 1⟩ = true
  /-- On a line, it is not after the position that follows the last character. -/
  column_le : ∀ line, lines[p.line - 1]? = some line → p.column ≤ line.length + 1

/-- Whether a span is a part of a file with some lines. -/
structure Span.In (lines : List String) (s : Span) : Prop where
  ordered : s.start.precedes s.stop = true
  start : s.start.In lines
  stop : s.stop.In lines

namespace Position

variable {a b : Position}

/-- Lines count before columns. -/
theorem precedes_iff :
    a.precedes b = true ↔ a.line < b.line ∨ a.line = b.line ∧ a.column ≤ b.column := by
  simp [precedes]

/-- The order of positions. -/
theorem precedes_trans {c : Position} (h : a.precedes b) (h' : b.precedes c) : a.precedes c := by
  rw [precedes_iff] at *
  omega

private theorem min_precedes (a b : Position) : (a.min b).precedes a := by
  unfold min
  split
  · exact precedes_iff.mpr (by omega)
  · rename_i h
    rw [precedes_iff] at *
    omega

private theorem precedes_max (a b : Position) : a.precedes (a.max b) := by
  unfold max
  split
  · rename_i h
    exact h
  · exact precedes_iff.mpr (by omega)

variable {lines : List String}

private theorem In.min (ha : a.In lines) (hb : b.In lines) : (a.min b).In lines := by
  unfold Position.min
  split
  · exact ha
  · exact hb

private theorem In.max (ha : a.In lines) (hb : b.In lines) : (a.max b).In lines := by
  unfold Position.max
  split
  · exact hb
  · exact ha

private theorem in_end (lines : List String) : Position.In lines ⟨lines.length + 1, 1⟩ where
  line_pos := Nat.le_add_left _ _
  column_pos := le_rfl
  precedes_end := by simp [precedes]
  column_le := by simp

private theorem in_line {line : String} (hpos : 1 ≤ column) (hle : column ≤ line.length + 1) :
    Position.In (before ++ line :: after) ⟨before.length + 1, column⟩ where
  line_pos := Nat.le_add_left _ _
  column_pos := hpos
  precedes_end := by
    rw [precedes_iff, length_append, length_cons]
    dsimp only
    omega
  column_le := by
    intro found hfound
    simp only [Nat.add_sub_cancel, getElem?_append_right le_rfl, Nat.sub_self,
      getElem?_cons_zero, Option.some.injEq] at hfound
    rwa [← hfound]

end Position

namespace Span

variable {lines : List String}

private theorem In.merge {a b : Span} (ha : a.In lines) (hb : b.In lines) :
    (a.merge b).In lines where
  ordered := Position.precedes_trans (Position.min_precedes _ _)
    (Position.precedes_trans ha.ordered (Position.precedes_max _ _))
  start := ha.start.min hb.start
  stop := ha.stop.max hb.stop

private theorem in_point {p : Position} (h : p.In lines) : (point p).In lines :=
  ⟨Position.precedes_iff.mpr (.inr ⟨rfl, le_rfl⟩), h, h⟩

private theorem in_onLine {line : String} {start stop : Nat} (hpos : 1 ≤ start)
    (hordered : start ≤ stop) (hle : stop ≤ line.length + 1) :
    (onLine (before.length + 1) start stop).In (before ++ line :: after) :=
  ⟨Position.precedes_iff.mpr (.inr ⟨rfl, hordered⟩), Position.in_line hpos (by omega),
    Position.in_line (by omega) hle⟩

end Span

/-! ### Scanning -/

private theorem recognise_fault_length {c : Char} {rest : List Char} {fault : ScanFault}
    {length : Nat} (h : recognise c rest = .error (fault, length)) : length ≤ rest.length + 1 := by
  unfold recognise at h
  split at h
  · cases h
  · cases h
  · split at h
    · cases h
    · cases h
      omega
  · split at h
    · unfold recogniseDirective at h
      dsimp only at h
      split at h
      · cases h
        omega
      · cases h
    split at h
    · unfold recogniseText at h
      dsimp only at h
      split at h
      · cases h
        omega
      · cases h
    split at h
    · cases h
    split at h
    · cases h
    · cases h
      omega

/-- Whether an open comment starts at a place. -/
def ScanState.Placed (P : Span → Prop) (state : ScanState) : Prop :=
  0 < state.commentDepth → P (.point state.commentStart)

/-- Whether what was found in a line stands at some places. -/
structure LineScan.Placed (P : Span → Prop) (scan : LineScan) : Prop where
  tokens : ∀ t ∈ scan.tokens, P t.span
  state : scan.state.Placed P
  fault : ∀ d ∈ scan.fault, P d.span

namespace LineContext

variable {P : Span → Prop} {line : LineContext}

private theorem checkIndent_column {mark : Option Char} {found : Nat} {leading : List Char}
    (h : checkIndent mark column leading = .error found) :
    column ≤ found ∧ found < column + leading.length := by
  induction leading generalizing mark column with
  | nil => cases h
  | cons c rest ih =>
    rw [checkIndent] at h
    rw [length_cons]
    split at h
    · have := ih h
      omega
    · cases h
      omega

/-- Whether the parts of a line are places. -/
def Within (P : Span → Prop) (line : LineContext) : Prop :=
  ∀ start stop, 1 ≤ start → start ≤ stop → stop ≤ line.width + 1 → P (line.span start stop)

private theorem placed_finish (hline : line.Within P) (started : Bool) (hstate : state.Placed P) :
    (line.finish started state).Placed P := by
  refine ⟨?_, hstate, fun d hd => absurd hd (Option.not_mem_none d)⟩
  unfold finish
  dsimp only
  split
  · exact forall_mem_singleton.mpr (hline _ _ (by omega) le_rfl le_rfl)
  · exact forall_mem_nil _

private theorem placed_scanFrom (hline : line.Within P)
    (hleading : line.leading.length ≤ line.width) (steps column : Nat) (started : Bool)
    (state : ScanState) (cs : List Char) (hpos : 1 ≤ column)
    (hwidth : column + cs.length ≤ line.width + 1) (hstate : state.Placed P) :
    (line.scanFrom steps column started state cs).Placed P := by
  fun_induction LineContext.scanFrom line steps column started state cs with
  | case1 steps column started state c rest hdepth hopen ih
  | case2 steps column started state c rest hdepth _ hopen ih =>
    obtain ⟨rest, rfl, rfl⟩ := exists_of_pair hopen
    simp only [length_cons] at hwidth
    exact ih (by omega) (by simpa using by omega) fun _ => hstate hdepth
  | case3 steps column started state c rest hdepth hopen hclosing ih
  | case4 steps column started state c rest hdepth hblank ih =>
    rw [length_cons] at hwidth
    exact ih (by omega) (by omega) hstate
  | case5 steps column started state c rest hdepth _ hcomment =>
    exact placed_finish hline started hstate
  | case6 steps column started state c rest hdepth _ _ hopen ih =>
    obtain ⟨rest, rfl, rfl⟩ := exists_of_pair hopen
    simp only [length_cons] at hwidth
    exact ih (by omega) (by simpa using by omega) fun _ => hline column column hpos le_rfl
      (by omega)
  | case7 steps column started state c rest hdepth _ _ _ fault length hrec =>
    have hlen := recognise_fault_length hrec
    rw [length_cons] at hwidth
    refine ⟨forall_mem_nil _, hstate, fun d hd => ?_⟩
    rw [← Option.mem_some.mp hd]
    exact hline column (column + length) hpos (by omega) (by omega)
  | case8 steps column started state c rest hdepth _ _ _ kind length hrec found hfound =>
    refine ⟨forall_mem_nil _, hstate, fun d hd => ?_⟩
    have hcolumn : 1 ≤ found ∧ found < 1 + line.leading.length := by
      split at hfound
      · cases hfound
      · exact checkIndent_column hfound
    rw [← Option.mem_some.mp hd]
    exact hline found (found + 1) (by omega) (by omega) (by omega)
  | case9 steps column started state c rest hdepth _ _ _ kind length hrec mark hmark after
      token ih =>
    obtain ⟨hlen, hle⟩ := recognise_length hrec
    rw [length_cons] at hwidth
    have hrest := ih (by omega) (by rw [length_drop]; omega) fun h => absurd h hdepth
    refine ⟨forall_mem_cons.mpr ⟨?_, hrest.tokens⟩, hrest.state, hrest.fault⟩
    exact hline column (column + length) hpos (by omega) (by omega)
  | case10 steps column started state cs => exact placed_finish hline started hstate

end LineContext

/-- Whether the tokens of a source and its fault are at some places. -/
structure Scanned.Placed (P : Span → Prop) (scanned : Scanned) : Prop where
  tokens : ∀ t ∈ scanned.tokens, P t.span
  fault : ∀ d ∈ scanned.fault, P d.span

private theorem placed_scanEnd {path : String} {lineOpen : Bool} {lines : List String}
    (hstate : state.Placed (Span.In lines)) :
    (scanEnd path (lines.length + 1) lineOpen state).Placed (Span.In lines) := by
  have hend := Span.in_point (Position.in_end lines)
  unfold scanEnd
  split
  · rename_i hdepth
    refine ⟨forall_mem_nil _, fun d hd => ?_⟩
    rw [← Option.mem_some.mp hd]
    exact hstate hdepth
  · refine ⟨?_, fun d hd => absurd hd (Option.not_mem_none d)⟩
    dsimp only
    split
    · exact forall_mem_cons.mpr ⟨hend, forall_mem_singleton.mpr hend⟩
    · exact forall_mem_singleton.mpr hend

private theorem placed_scanLine {chars : List Char}
    (hstate : state.Placed (Span.In (before ++ String.ofList chars :: after))) :
    (scanLine path (before.length + 1) state chars).Placed
    (Span.In (before ++ String.ofList chars :: after)) := by
  refine LineContext.placed_scanFrom (fun start stop hpos hordered hle => ?_)
    (chars.takeWhile_sublist isIndent).length_le chars.length 1 false state chars le_rfl
    (by dsimp only; omega) hstate
  exact Span.in_onLine hpos hordered (by rwa [String.length_ofList])

private theorem placed_scanLines {number : Nat} (before : List String)
    (hnum : number = before.length + 1) (lineOpen : Bool) {source : Source} (hstate : state.Placed
    (Span.In (before ++ (scanLines path number lineOpen state source).lines))) :
    (scanLines path number lineOpen state source).Placed
      (Span.In (before ++ (scanLines path number lineOpen state source).lines)) := by
  induction source generalizing number before lineOpen state with
  | nil =>
    have hlines : (scanLines path number lineOpen state []).lines = [] := by
      rw [scanLines, scanEnd]
      split <;> rfl
    rw [hlines, append_nil] at hstate ⊢
    rw [hnum]
    exact placed_scanEnd hstate
  | cons line rest ih =>
    cases line with
    | unreadable fault =>
      refine ⟨forall_mem_nil _, fun d hd => ?_⟩
      rw [← Option.mem_some.mp hd, scanLines, append_nil, hnum]
      exact Span.in_point (Position.in_end before)
    | text chars _ =>
      rw [scanLines] at hstate ⊢
      dsimp only at hstate ⊢
      cases hfault : (scanLine path number state chars).fault with
      | some fault =>
        simp only [hfault] at hstate ⊢
        subst hnum
        have hline := placed_scanLine path hstate
        exact ⟨hline.tokens, hfault ▸ hline.fault⟩
      | none =>
        simp only [hfault] at hstate ⊢
        subst hnum
        have hline := placed_scanLine path hstate
        have hlen : before.length + 1 + 1 = (before ++ [String.ofList chars]).length + 1 := by simp
        rw [append_cons] at hline ⊢
        have hrest := ih _ hlen _ hline.state
        exact ⟨forall_mem_append.mpr ⟨hline.tokens, hrest.tokens⟩, hrest.fault⟩

private theorem placed_scan (source : Source) :
    (scan path source).Placed (Span.In (scan path source).lines) := by
  have hstart : ScanState.Placed (Span.In (scan path source).lines) {} :=
    fun h => absurd h (Nat.lt_irrefl 0)
  exact placed_scanLines path [] rfl false hstart

/-! ### Compilation -/

private theorem IsStream.ending {P : Span → Prop} {tokens : List Token} (h : IsStream tokens)
    (htoks : ∀ t ∈ tokens, P t.span) : P (Cursor.ofTokens tokens).ending := by
  obtain ⟨front, eof, rfl, heof, hfront⟩ := h
  rw [Cursor.ofTokens_append_eof hfront heof]
  exact htoks eof (by simp)

/-- What the stages before the lowering report stands where the tokens do. -/
theorem Stages.placed {P : Span → Prop} (hmerge : ∀ {a b : Span}, P a → P b → P (a.merge b))
    (catalog : Catalog) (pictures : Pictures) (options : AnalysisOptions) {macros : Macros}
    (hmacros : macros.EofFree) {tokens : List Token} (hstream : IsStream tokens)
    (htoks : ∀ t ∈ tokens, P t.span) {st : Stages}
    (hst : Stages.ofTokens catalog pictures options macros tokens = st) :
    (∀ d ∈ st.expansion.diagnostics ++ st.parsed.errors, P d.span) ∧
      (∀ d ∈ st.analysis.warnings ++ st.analysis.errors, P d.span) ∧ ∀ d ∈ st.folding.errors,
      P d.span := by
  subst hst
  have hall : macros.Holds fun _ => True := fun _ _ _ _ _ => trivial
  have hexp := hall.expandSteps hmerge tokens.length fun t ht => ⟨htoks t ht, trivial⟩
  have hexpanded : IsStream (macros.expand tokens).tokens :=
    Macros.isStream_expandSteps hmacros hstream le_rfl
  have hparsed :=
    parse_of (N := fun _ => True) hmerge (fun t ht => ⟨(hexp.1 t ht).1, fun _ _ => trivial⟩)
    (hexpanded.ending fun t ht => (hexp.1 t ht).1)
  have hana := analyze_of catalog options fun item hitem => (hparsed.1 item hitem).2
  refine ⟨forall_mem_append.mpr ⟨fun d hd => (hexp.2 d hd).2, fun d hd => ?_⟩,
    forall_mem_append.mpr ⟨fun d hd => (hana.2.2.1 d hd).1, hana.2.1⟩,
    fun d hd => ((Program.prunedAll_fold hana.1).2.1 d hd).2⟩
  obtain ⟨fault, span, rfl, hspan⟩ := hparsed.2.1 d hd
  exact hspan

/-- Whether all that a compilation reports points into the lines that it returns. -/
structure ReportsIn (outcome : Except CompileFailure Compilation) : Prop where
  ok : ∀ result, outcome = .ok result → ∀ d ∈ result.warnings, d.span.In result.lines
  error : ∀ failure, outcome = .error failure →
    (∀ d ∈ failure.errors, d.span.In failure.lines) ∧ ∀ d ∈ failure.warnings,
    d.span.In failure.lines

private theorem ReportsIn.of_ok {result : Compilation}
    (h : ∀ d ∈ result.warnings, d.span.In result.lines) : ReportsIn (.ok result) :=
  ⟨fun _ hres => Except.ok.inj hres ▸ h, nofun⟩

private theorem ReportsIn.of_error {failure : CompileFailure}
    (herrs : ∀ d ∈ failure.errors, d.span.In failure.lines)
    (hwarns : ∀ d ∈ failure.warnings, d.span.In failure.lines) : ReportsIn (.error failure) :=
  ⟨nofun, fun _ hfailure => Except.error.inj hfailure ▸ ⟨herrs, hwarns⟩⟩

namespace Collected

/-- Whether all diagnostics are at some places. -/
structure Placed (P : Span → Prop) (c : Collected) : Prop where
  errors : ∀ d ∈ c.errors, P d.span
  warnings : ∀ d ∈ c.warnings, P d.span

variable {P : Span → Prop} {c : Collected} {path : String} {lines : List String}
  {diagnostics : List Diagnostic}

private theorem placed_empty : Placed P {} := ⟨forall_mem_nil _, forall_mem_nil _⟩

private theorem Placed.add (h : c.Placed P) (hnew : ∀ d ∈ diagnostics, P d.span) :
    (c.add diagnostics).Placed P where
  errors := forall_mem_append.mpr ⟨h.errors, fun d hd => hnew d (mem_of_mem_filter hd)⟩
  warnings := forall_mem_append.mpr ⟨h.warnings, fun d hd => hnew d (mem_of_mem_filter hd)⟩

private theorem Placed.strict (h : c.Placed P) : c.strict.Placed P where
  errors := by
    refine forall_mem_append.mpr ⟨h.errors, fun d hd => ?_⟩
    obtain ⟨warning, hwarning, rfl⟩ := mem_map.mp hd
    exact h.warnings warning hwarning
  warnings := forall_mem_nil _

private theorem forall_mem_inFile (h : ∀ d ∈ diagnostics, P d.span) :
    ∀ d ∈ diagnostics.map (·.inFile path), P d.span := by
  intro d hd
  obtain ⟨found, hfound, rfl⟩ := mem_map.mp hd
  exact h found hfound

private theorem Placed.check_bind (h : c.Placed (Span.In lines))
    {next : Unit → Except CompileFailure Compilation}
    (hnext : c.errors = [] → ReportsIn (next ())) : ReportsIn (c.check path lines >>= next) := by
  unfold check
  split
  · rename_i hnone
    exact hnext (isEmpty_iff.mp hnone)
  · exact .of_error (forall_mem_inFile h.errors) (forall_mem_inFile h.warnings)

end Collected

/-- Every diagnostic points into the file. -/
theorem compile_reportsIn (path : String) (pictures : Pictures) (options : CompileOptions)
    (source : Source) (hdefines : ∃ macros, Macros.predefined options.defines = .ok macros) :
    ReportsIn (compile path Robot.catalog pictures options source) := by
  have hscan := placed_scan path source
  unfold compile
  dsimp only
  cases hsrc : scanSource path options.defines source with
  | error d =>
    obtain ⟨macros, hmacros⟩ := hdefines
    have hd : d ∈ (scan path source).fault := by
      unfold scanSource at hsrc
      dsimp only at hsrc
      split at hsrc
      · rename_i fault hfault
        rw [hfault, ← Except.error.inj hsrc]
        exact Option.mem_some_self _
      · rw [hmacros] at hsrc
        cases hsrc
    exact .of_error (List.forall_mem_singleton.mpr (hscan.fault d hd)) (List.forall_mem_nil _)
  | ok scanned =>
    obtain ⟨macros, tokens⟩ := scanned
    obtain ⟨hfault, rfl, hmacros⟩ := scanSource_eq_ok hsrc
    obtain ⟨hparsed, hana, hfolding⟩ := Stages.placed .merge Robot.catalog pictures options.analysis
      (Macros.eofFree_predefined hmacros) (isStream_scan hfault) hscan.tokens rfl
    have hfirst := Collected.placed_empty.add hparsed
    have hsnd := hfirst.add hana
    have hthird := hsnd.add hfolding
    refine hfirst.check_bind fun _ => hsnd.check_bind fun _ => hthird.check_bind fun hnone => ?_
    have hclean : (Stages.ofTokens Robot.catalog pictures options.analysis macros
        (scan path source).tokens).Clean := by
      simp only [Collected.errors_add_eq_nil_iff, List.forall_mem_append] at hnone
      obtain ⟨⟨⟨-, hexp, hparsed⟩, -, hana⟩, hfolding⟩ := hnone
      unfold Stages.Clean Stages.reported
      rw [List.forall_mem_append, List.forall_mem_append, List.forall_mem_append]
      exact ⟨⟨⟨hexp, hparsed⟩, hana⟩, hfolding⟩
    have hlowering : ∀ d ∈ (Stages.ofTokens Robot.catalog pictures options.analysis macros
        (scan path source).tokens).lowering.errors, d.span.In (scan path source).lines := by
      rw [hclean.lowering_errors Robot.complete]
      exact List.forall_mem_nil _
    have hlast := hthird.add hlowering
    split
    · exact hlast.strict.check_bind fun _ =>
        .of_ok (Collected.forall_mem_inFile hlast.strict.warnings)
    · exact hlast.check_bind fun _ => .of_ok (Collected.forall_mem_inFile hlast.warnings)

/-- A program with a name that nothing declares, on the second line of a call, and an unused
variable. -/
def misspelled : Source :=
  Source.ofText
    "const step = PAUSE + 1\nvar unused = step\n@button \"a\":\n  audio.stop(\n    count, step)\n"

/-- The reports stand in it. -/
theorem compile_reportsIn_misspelled :
    ∃ macros failure, Macros.predefined ["PAUSE=2"] = .ok macros ∧
      compile "main.bot" Robot.catalog noPictures { defines := ["PAUSE=2"] } misspelled =
      .error failure ∧ failure.errors.length = 1 ∧ failure.warnings.length = 1 ∧
      ReportsIn (.error failure) := by
  have hmacros :
    (Macros.predefined ["PAUSE=2"]).toOption.any (fun _ => true) = true := by decide +kernel
  have hfailure :
      (match compile "main.bot" Robot.catalog noPictures { defines := ["PAUSE=2"] } misspelled with
      | .ok _ => false
      | .error failure => failure.errors.length == 1 && failure.warnings.length == 1) = true := by
    decide +kernel
  obtain ⟨macros, hmacros, -⟩ := exists_of_toOption_any hmacros
  have hreports :
      ReportsIn (compile "main.bot" Robot.catalog noPictures { defines := ["PAUSE=2"] }
      misspelled) :=
    compile_reportsIn "main.bot" noPictures _ misspelled ⟨macros, hmacros⟩
  cases hcompile :
      compile "main.bot" Robot.catalog noPictures { defines := ["PAUSE=2"] } misspelled with
  | ok result =>
    rw [hcompile] at hfailure
    cases hfailure
  | error failure =>
    rw [hcompile] at hfailure hreports
    simp only [Bool.and_eq_true, beq_iff_eq] at hfailure
    exact ⟨macros, failure, hmacros, rfl, hfailure.1, hfailure.2, hreports⟩

end BlockScript
