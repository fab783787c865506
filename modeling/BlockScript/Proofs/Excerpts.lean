import BlockScript.Diagnostic.Notice
import BlockScript.Proofs.DiagnosticPlaces

/-!
# Excerpts of the source

A notice with an excerpt shows the lines of its span one after another, each above a line of carets.
The lines are those from the first one of the span on, up to its last one or to where the source
ends. Where the span lies in the source, the carets stand under the columns that lie in it, or under
one column if there are none.
-/

namespace BlockScript

open List

/-- Whether a span begins and ends in a source with `count` lines, and does not end before it
begins. -/
structure Span.Within (span : Span) (count : Nat) : Prop where
  line_pos : 1 ≤ span.start.line
  start_pos : 1 ≤ span.start.column
  stop_pos : 1 ≤ span.stop.column
  ordered : span.start.precedes span.stop = true
  stop_le : span.stop.line ≤ count

/-- Whether a column of a line lies in a span. On its last line a span goes on to the column where
it stops, on the lines before to their end. -/
def Span.Holds (span : Span) (line width column : Nat) : Prop :=
  span.start.precedes ⟨line, column⟩ = true ∧ span.stop.precedes ⟨line, column⟩ = false ∧
    (line = span.stop.line ∨ column ≤ width)

/-- The column where a span begins on one of its lines. -/
def Span.firstColumn (span : Span) (line : Nat) :
    Nat := if line = span.start.line then span.start.column else 1

namespace Notice

/-- The line of a source that has a number. Lines are counted from one. -/
def lineAt? (lines : List String) (number : Nat) : Option String :=
  if number = 0 then none else lines[number - 1]?

/-- A line of an excerpt, with the number of blanks and of carets below it. -/
structure MarkedLine where
  number : Nat
  text : String
  blanks : Nat
  carets : Nat

/-- Whether there is a caret under a column. -/
def MarkedLine.Marks (line : MarkedLine) (column : Nat) : Prop :=
  line.blanks < column ∧ column ≤ line.blanks + line.carets

/-- How a line is shown behind its number, and its carets behind an empty gutter. -/
def MarkedLine.shown (gutter : Nat) (line : MarkedLine) : String :=
  padLeft gutter (toString line.number) ++ " | " ++ line.text ++ "\n" ++
    run ' ' gutter ++ " | " ++ run ' ' line.blanks ++ run '^' line.carets ++ "\n"

/-- The line of an excerpt with the carets for a span. -/
def markedLine (span : Span) (line : Nat × String) : MarkedLine :=
  let columns := marked span line.1 line.2.length
  ⟨line.1, line.2, columns.1, columns.2 - columns.1⟩

/-- The width of the gutter, in which the numbers of all lines have room. -/
def gutter (n : Notice) : Nat := (toString (lastLine n.span)).length

/-- What comes before the excerpt: the message, the location and an empty gutter. -/
def heading (n : Notice) : String :=
  n.severity.label ++ "[" ++ n.stage.label ++ "]: " ++ n.message ++ "\n" ++
    "  --> " ++ n.path.getD "<input>" ++ ":" ++ toString n.span.start.line ++ ":" ++
      toString n.span.start.column ++ "\n" ++
    run ' ' n.gutter ++ " |\n"

variable {span : Span} {lines : List String}

private theorem marked_fst_lt_snd (span : Span) (line width : Nat) :
    (marked span line width).1 < (marked span line width).2 :=
  Nat.lt_of_lt_of_le (Nat.lt_succ_self _) (Nat.le_max_right _ _)

private theorem takeWhile_lineAt? (lines : List String) (first count : Nat) :
    (range' (first + 1) count).takeWhile (fun number => (lineAt? lines number).isSome) =
      range' (first + 1) (min count (lines.length - first)) := by
  induction count generalizing first with
  | zero => simp
  | succ count ih =>
    rw [range'_succ, takeWhile_cons, ih (first + 1)]
    by_cases hfirst : first < lines.length
    · have hsome : (lineAt? lines (first + 1)).isSome = true := by simp [lineAt?, hfirst]
      rw [if_pos hsome, ← range'_succ]
      congr 1
      omega
    · have hnone :
        ¬ (lineAt? lines (first + 1)).isSome = true := by simp [lineAt?, Nat.le_of_not_lt hfirst]
      rw [if_neg hnone, show min (count + 1) (lines.length - first) = 0 by omega, range'_zero]

private theorem fst_excerpted (span : Span) (lines : List String) :
    (excerpted span lines).map Prod.fst =
      (range' span.start.line (lastLine span + 1 - span.start.line)).takeWhile
      (fun number => (lineAt? lines number).isSome) := by
  unfold excerpted
  cases hstart : span.start.line with
  | zero => simp [range'_succ, lineAt?]
  | succ first =>
    rw [if_neg (Nat.succ_ne_zero first), takeWhile_lineAt?]
    dsimp only
    rw [map_fst_zip (by simp), length_take, length_drop, Nat.add_sub_cancel]

private theorem lineAt?_of_mem_excerpted {p : Nat × String} (hp : p ∈ excerpted span lines) :
    lineAt? lines p.1 = some p.2 := by
  unfold excerpted at hp
  split at hp
  · cases hp
  · rename_i hstart
    obtain ⟨i, hi⟩ := mem_iff_getElem?.mp hp
    obtain ⟨hnum, htext⟩ := getElem?_zip_eq_some.mp hi
    obtain ⟨hlt, hnum⟩ := List.getElem?_eq_some_iff.mp hnum
    rw [length_range', length_take] at hlt
    rw [getElem?_take_of_lt (by omega), getElem?_drop] at htext
    rw [getElem_range'] at hnum
    rw [← htext, ← hnum, lineAt?, if_neg (by omega)]
    congr 1
    omega

private theorem holds_iff {line width column : Nat} (hspan : span.Within lines.length)
    (hstart : span.start.line ≤ line) (hstop : line ≤ span.stop.line) (hcolumn : 1 ≤ column) :
    span.Holds line width column ↔ span.firstColumn line ≤ column ∧
      column ≤ if line = span.stop.line then span.stop.column - 1 else width := by
  have hpos := hspan.stop_pos
  unfold Span.Holds Span.firstColumn
  rw [← Bool.not_eq_true, Position.precedes_iff, Position.precedes_iff]
  dsimp only
  split <;> split <;> omega

/-- The carets below a line of a span stand under its columns in the span. A line without such a
column has one caret, where the span begins on it. -/
theorem marks_iff_holds {line column : Nat} (text : String) (hspan : span.Within lines.length)
    (hstart : span.start.line ≤ line) (hstop : line ≤ span.stop.line) (hcolumn : 1 ≤ column) :
    (markedLine span (line, text)).Marks column ↔ span.Holds line text.length column ∨
      column = span.firstColumn line ∧ ∀ other, 1 ≤ other →
      ¬ span.Holds line text.length other := by
  have hpos := hspan.start_pos
  have hfirst : 1 ≤ span.firstColumn line := by
    unfold Span.firstColumn
    split <;> omega
  have hmarks : (markedLine span (line, text)).Marks column ↔ span.firstColumn line ≤ column ∧
      (column ≤ (if line = span.stop.line then span.stop.column - 1 else text.length) ∨
        column = span.firstColumn line) := by
    unfold MarkedLine.Marks markedLine marked Span.firstColumn Nat.max
    dsimp only
    split <;> split <;> omega
  rw [hmarks, holds_iff hspan hstart hstop hcolumn]
  constructor
  · rintro ⟨hle, hlast | rfl⟩
    · exact .inl ⟨hle, hlast⟩
    -- The first column lies in the span itself, unless no column does.
    · refine or_iff_not_imp_left.mpr fun hnot => ⟨rfl, fun other hother hin => hnot ?_⟩
      have hbounds := (holds_iff hspan hstart hstop hother).mp hin
      omega
  · rintro (⟨hle, hlast⟩ | ⟨rfl, -⟩)
    · exact ⟨hle, .inl hlast⟩
    · exact ⟨le_rfl, .inr rfl⟩

/-- A notice is shown with one line of carets below each line of its span. It ends at the first line
that is missing, and no line of carets is empty. Where the span lies in the source no line is
missing, and the carets are under the columns of the span. -/
theorem render_underlines (n : Notice) (lines : List String) :
    ∃ excerpt : List MarkedLine,
      n.render lines = n.heading ++ String.join (excerpt.map (MarkedLine.shown n.gutter)) ∧
      excerpt.map MarkedLine.number =
        (range' n.span.start.line (lastLine n.span + 1 - n.span.start.line)).takeWhile
          (fun number => (lineAt? lines number).isSome) ∧
      (∀ line ∈ excerpt, lineAt? lines line.number = some line.text ∧
        ∃ last, (line.blanks, last) = marked n.span line.number line.text.length ∧
          line.blanks < last ∧ line.carets = last - line.blanks) ∧
      (n.span.Within lines.length →
        excerpt.map MarkedLine.number =
          range' n.span.start.line (n.span.stop.line + 1 - n.span.start.line) ∧
        ∀ line ∈ excerpt, ∀ column, 1 ≤ column →
          (line.Marks column ↔ n.span.Holds line.number line.text.length column ∨
            column = n.span.firstColumn line.number ∧
              ∀ other, 1 ≤ other → ¬ n.span.Holds line.number line.text.length other)) := by
  refine ⟨(excerpted n.span lines).map (markedLine n.span), ?_, ?_, ?_, fun hspan => ?_⟩
  · rw [map_map]
    rfl
  · rw [map_map]
    exact fst_excerpted n.span lines
  · rintro line hline
    obtain ⟨p, hp, rfl⟩ := mem_map.mp hline
    exact ⟨lineAt?_of_mem_excerpted hp, _, rfl, marked_fst_lt_snd _ _ _, rfl⟩
  · have hlast : lastLine n.span = n.span.stop.line :=
      Nat.max_eq_left (by have := Position.precedes_iff.mp hspan.ordered; omega)
    have hnums : (excerpted n.span lines).map Prod.fst =
        range' n.span.start.line (n.span.stop.line + 1 - n.span.start.line) := by
      rw [fst_excerpted, hlast, takeWhile_eq_self_iff]
      intro number hnum
      have hbounds := mem_range'_1.mp hnum
      have hpos := hspan.line_pos
      have hle := hspan.stop_le
      rw [lineAt?, if_neg (by omega), isSome_getElem?]
      omega
    rw [map_map]
    refine ⟨hnums, fun line hline => ?_⟩
    obtain ⟨p, hp, rfl⟩ := mem_map.mp hline
    have hbounds := mem_range'_1.mp (hnums ▸ mem_map_of_mem (f := Prod.fst) hp)
    exact fun column hcolumn => marks_iff_holds p.2 hspan (by omega) (by omega) hcolumn

/-- An empty line, and one where the span ends before the first column, are shown too. -/
theorem render_underlines_of_three_lines :
    (⟨⟨1, 3⟩, ⟨3, 1⟩⟩ : Span).Within ["a b", "", "c"].length ∧ ∃ excerpt : List MarkedLine,
      excerpt.map MarkedLine.number = [1, 2, 3] ∧ ∀ line ∈ excerpt, 0 < line.carets := by
  have hspan : (⟨⟨1, 3⟩, ⟨3, 1⟩⟩ : Span).Within ["a b", "", "c"].length := by constructor <;> decide
  obtain ⟨excerpt, -, -, hlines, hin⟩ :=
    render_underlines ⟨.analyze, .error, "bad", ⟨⟨1, 3⟩, ⟨3, 1⟩⟩, none⟩ ["a b", "", "c"]
  refine ⟨hspan, excerpt, (hin hspan).1, fun line hline => ?_⟩
  obtain ⟨-, last, -, hlt, hcarets⟩ := hlines line hline
  omega

end Notice

end BlockScript
