import BlockScript.Proofs.ItemBoundaries
import BlockScript.Token.Scanner
import Mathlib.Order.Monotone.Basic

/-!
# The order of indentations

Parsing compares indentations with each other and with the outermost level, and does not measure
them. So lines may be indented in any other way that keeps the order: the program is the same, and
so are the errors, except that an error on uneven indentation quotes the new columns.
-/

namespace BlockScript

open List

/-- A token on a line that is indented in another way. -/
def Token.reindent (f : Nat → Nat) (t : Token) : Token := { t with indent := f t.indent }

/-- A diagnostic where lines are indented in another way: uneven indentation is quoted as it is
now. -/
def Diagnostic.reindent (f : Nat → Nat) (d : Diagnostic) : Diagnostic :=
  match d.cause with
  | .parse (.unevenIndentation columns found) =>
    { d with cause := .parse (.unevenIndentation (f columns) (f found)) }
  | _ => d

namespace Transport

variable {f : Nat → Nat}

/-- The change that indents lines in another way. -/
def reindenting (hf : StrictMono f) (hzero : f 0 = 0) : Transport :=
  { after 0 [] with indent := f, indent_lt_iff := fun _ _ => hf.lt_iff_lt, indent_zero := hzero }

variable (hf : StrictMono f) (hzero : f 0 = 0)

private theorem diagnostic_reindenting (d : Diagnostic) :
    (reindenting hf hzero).diagnostic d = d.reindent f := by
  obtain ⟨cause, span, severity, path⟩ := d
  cases cause with
  | parse fault => cases fault <;> rfl
  | _ => rfl

private theorem cursor_reindenting (tokens : List Token) :
    (reindenting hf hzero).cursor (.ofTokens tokens) =
    .ofTokens (tokens.map (Token.reindent f)) := by
  have heof : (fun t : Token => t.isEof) ∘ Token.reindent f = fun t => t.isEof := rfl
  have hplain : (fun t : Token => !t.isEof) ∘ Token.reindent f = fun t => !t.isEof := rfl
  have hend : (Cursor.ofTokens (tokens.map (Token.reindent f))).ending =
      (Cursor.ofTokens tokens).ending := by
    simp only [Cursor.ofTokens, find?_map, getLast?_map, heof]
    cases tokens.find? (·.isEof) <;> cases tokens.getLast? <;> rfl
  simp only [cursor, reindenting, after, append_nil, nil_append, Nat.add_zero]
  rw [← hend]
  simp only [Cursor.ofTokens, takeWhile_map, hplain]
  rfl

end Transport

/-- Only the order of indentations matters: where lines are indented in another way that keeps the
order and the outermost level, the program is the same, and the errors are the same but for the
columns they quote. -/
theorem parse_reindent {f : Nat → Nat} (hf : StrictMono f) (hzero : f 0 = 0) (tokens : List Token) :
    (parse (tokens.map (Token.reindent f))).program = (parse tokens).program ∧
      (parse (tokens.map (Token.reindent f))).errors = (parse tokens).errors.map
      (Diagnostic.reindent f) := by
  let T := Transport.reindenting hf hzero
  obtain ⟨statements, c, left, hrun, hrest, -, hmoved⟩ :=
    Transport.run_items_cursor (T := T) _ _ (Cursor.ofTokens tokens) (.inl (.inl rfl)) le_rfl le_rfl
  have hkeeps : T.relabeling.Keeps := ⟨fun _ => rfl, fun _ => rfl, fun _ => rfl⟩
  have hdiag : T.diagnostic = Diagnostic.reindent f :=
    funext (Transport.diagnostic_reindenting hf hzero)
  rw [map_eq_pure_bind,
    run_bind_of_ok (Parser.run_items_of_nil left (Transport.rest_cursor_of_nil hrest)), append_nil,
    ← Stmt.relabelAll_eq_map, Stmt.relabelAll_of_keeps hkeeps, Transport.cursor_reindenting]
    at hmoved
  have hlen : (Cursor.ofTokens (tokens.map (Token.reindent f))).rest.length =
      (Cursor.ofTokens tokens).rest.length + T.tail.length := by
    rw [← Transport.cursor_reindenting hf hzero, Transport.length_rest_cursor]
  simp only [parse, hlen, hmoved, hrun]
  exact ⟨rfl, congrArg (c.errors.map ·) hdiag⟩

/-- A handler whose second line is indented deeper than its first one. -/
def unevenBody : Source :=
  Source.ofText "@start:\n  display.show(1)\n   display.show(2)\n  display.show(3)\n"

/-- Its error is quoted anew. -/
theorem parse_reindent_unevenBody :
    let tokens := (scan "main.bot" unevenBody).tokens
    let parsed := parse tokens
    let reindented := parse (tokens.map (Token.reindent (4 * ·)))
    parsed.errors.map (·.cause) = [.parse (.unevenIndentation 2 3)] ∧
      reindented.program = parsed.program ∧
      reindented.errors = parsed.errors.map (Diagnostic.reindent (4 * ·)) := by
  intro tokens parsed reindented
  exact ⟨by decide +kernel, parse_reindent (fun a b (h : a < b) => show 4 * a < 4 * b by omega)
    rfl tokens⟩

end BlockScript
