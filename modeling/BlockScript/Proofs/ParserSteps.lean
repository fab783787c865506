import BlockScript.Grammar.Statement
import BlockScript.Proofs.Runs

/-!
# Steps of parsers

What the smallest parsers do at a cursor: they look at the next token, pass it or fail, and take
numbers for nodes. Whether a parser ends well is said step by step, by what is before the cursor.
-/

namespace BlockScript

variable {kind : Token.Kind} {what : Expectation} {build : Nat → Expr × Nat} {name : String}

namespace Cursor

variable {c : Cursor}

/-- One token is passed. -/
theorem advance_of_rest {t : Token} {rest : List Token} (h : c.rest = t :: rest) :
    c.advance.rest = rest := by
  unfold advance
  rw [h]

/-- The rest is the tail. -/
@[simp] theorem rest_advance (c : Cursor) : c.advance.rest = c.rest.tail := by
  unfold advance
  split <;> simp_all

/-- Passing reports nothing. -/
@[simp] theorem errors_advance (c : Cursor) : c.advance.errors = c.errors := by
  unfold advance
  split <;> rfl

/-- Passing takes no number. -/
@[simp] theorem nextId_advance (c : Cursor) : c.advance.nextId = c.nextId := by
  unfold advance
  split <;> rfl

/-- The next token has its kind. -/
theorem kind?_of_rest {t : Token} {rest : List Token} (h : c.rest = t :: rest) :
    c.kind? = some t.kind := by
  simp [kind?, h]

/-- A next token has the kind. -/
theorem kind?_eq_some_iff : c.kind? = some kind ↔ ∃ t rest, c.rest = t :: rest ∧ t.kind = kind := by
  unfold kind?
  cases c.rest <;> simp

end Cursor

namespace Parser

variable {α : Type} {c : Cursor} {fault : Diagnostic → Cursor → Prop} {post : Span → Cursor → Prop}

/-- Passing a token. -/
theorem run_pass_bind {f : Span → Parser α} : (pass >>= f) c = f c.span c.advance := rfl

/-- Looking at a token. -/
theorem run_sees (kind : Token.Kind) : sees kind c = .ok (c.kind? == some kind) c := rfl

/-- A token is accepted. -/
theorem run_accept_of_kind (h : c.kind? = some kind) : accept kind c = .ok true c.advance := by
  rw [accept, run_bind_of_ok (run_sees kind), h, beq_self_eq_true]
  rfl

/-- Another token is not. -/
theorem run_accept_of_ne (h : c.kind? ≠ some kind) : accept kind c = .ok false c := by
  rw [accept, run_bind_of_ok (run_sees kind), beq_eq_false_iff_ne.mpr h]
  rfl

/-- Recovering never fails. -/
theorem exists_run_recovering (p : Parser α) (indent : Nat) (c : Cursor) :
    ∃ result c', recovering p indent c = .ok result c' := by
  unfold recovering
  split
  · exact ⟨_, _, rfl⟩
  · exact ⟨_, _, rfl⟩

section Items

variable {kind : Token.Kind} (steps : Nat)

/-- There are no items at the end. -/
theorem run_items_of_nil (h : c.rest = []) : items steps c = .ok [] c := by
  cases steps with
  | zero => rfl
  | succ steps =>
    rw [items, run_get_bind, h]
    rfl

/-- Empty lines are passed. -/
theorem run_items_of_newline (h : c.kind? = some .newline) :
    items (steps + 1) c = items steps c.advance := by
  obtain ⟨t, rest, hrest, -⟩ := Cursor.kind?_eq_some_iff.mp h
  rw [items, run_get_bind, if_neg (by simp [hrest]), run_bind_of_ok (run_accept_of_kind h)]
  rfl

/-- Indented items are faulty. -/
theorem run_items_of_indented (h : c.kind? = some kind) (hkind : kind ≠ .newline)
    (hind : 0 < c.indent) :
    items (steps + 1) c = items steps ((c.report (.parse .indentedItem c.span)).recover 0) := by
  obtain ⟨t, rest, hrest, -⟩ := Cursor.kind?_eq_some_iff.mp h
  rw [items, run_get_bind, if_neg (by simp [hrest]),
    run_bind_of_ok (run_accept_of_ne (by simp [h, hkind])), if_neg Bool.false_ne_true, if_pos hind]
  rfl

/-- An item, then the rest. -/
theorem run_items_of_item (h : c.kind? = some kind) (hkind : kind ≠ .newline)
    (hind : c.indent = 0) : items (steps + 1) c =
      (do
        let first ← recovering item 0
        let more ← items steps
        return first.toList ++ more : Parser (List Stmt)) c := by
  obtain ⟨t, rest, hrest, -⟩ := Cursor.kind?_eq_some_iff.mp h
  rw [items, run_get_bind, if_neg (by simp [hrest]),
    run_bind_of_ok (run_accept_of_ne (by simp [h, hkind])),
    if_neg Bool.false_ne_true, if_neg (by omega)]

end Items

@[simp] private theorem ends_pass : Ends pass c post fault ↔ post c.span c.advance := Iff.rfl

@[simp] private theorem ends_sees {post : Bool → Cursor → Prop} :
    Ends (sees kind) c post fault ↔ post (c.kind? == some kind) c := Iff.rfl

/-- Building takes numbers. -/
@[simp] theorem ends_building {post : Expr → Cursor → Prop} : Ends (building build) c post fault ↔
      post (build c.nextId).1 { c with nextId := (build c.nextId).2 } := Iff.rfl

@[simp] private theorem ends_failExpected {post : α → Cursor → Prop} :
    Ends (failExpected what) c post fault ↔ fault (.parse (.expected what c.found) c.span) c :=
    Iff.rfl

/-- Accepting never fails. -/
theorem ends_accept {post : Bool → Cursor → Prop} : Ends (accept kind) c post fault ↔
      if c.kind? = some kind then post true c.advance else post false c := by
  unfold accept
  rw [ends_bind, ends_sees]
  by_cases h : c.kind? = some kind <;> simp [h]

/-- Another token is a fault. -/
theorem ends_expect : Ends (expect kind what) c post fault ↔
      if c.kind? = some kind then post c.span c.advance
      else fault (.parse (.expected what c.found) c.span) c := by
  unfold expect
  rw [ends_bind, ends_sees]
  by_cases h : c.kind? = some kind <;> simp [h]

private theorem ends_expectName {post : String × Span → Cursor → Prop}
    (h : c.kind? = some (.name name)) :
    Ends (expectName what) c post fault ↔ post (name, c.span) c.advance := by
  unfold expectName
  rw [ends_bind, ends_get, h]
  exact Iff.rfl

/-! ### Parsers that pass tokens -/

/-- What is seen of tokens: their kinds, and maybe more. -/
class Sight (κ : Type) where
  /-- What is seen of a token. -/
  of : Token → κ
  /-- The kind of a token that is seen. -/
  kind : κ → Token.Kind
  kind_of : ∀ t, kind (of t) = t.kind

instance : Sight Token.Kind := ⟨Token.kind, id, fun _ => rfl⟩

open List

variable {κ : Type} [Sight κ] {seen later : List κ} {next : Option κ} {k : κ} {rest : List Token}

/-- Whether a cursor stands before some tokens, seen one by one, and others after them, of which
only the first is seen. -/
def Faces (seen : List κ) (next : Option κ) (rest : List Token) (c : Cursor) : Prop :=
  ∃ ts, c.rest = ts ++ rest ∧ ts.map Sight.of = seen ∧ rest.head?.map Sight.of = next

namespace Faces

/-- The next sight. -/
theorem head? (h : Faces seen next rest c) : c.rest.head?.map Sight.of = seen.head?.or next := by
  obtain ⟨ts, hc, hts, hnext⟩ := h
  rw [hc, head?_append, Option.map_or, hnext, ← head?_map, hts]

/-- The kind of the next sight. -/
theorem kind? (h : Faces seen next rest c) : c.kind? = (seen.head?.or next).map Sight.kind := by
  rw [← h.head?, Option.map_map]
  exact congrArg (c.rest.head?.map ·) (funext fun t => (Sight.kind_of t).symm)

/-- What is faced is left. -/
theorem length_le (h : Faces seen next rest c) : seen.length ≤ c.rest.length := by
  obtain ⟨ts, hc, hts, -⟩ := h
  rw [hc, ← hts, length_map, length_append]
  omega

/-- Something is left. -/
theorem isEmpty (h : Faces (k :: seen) next rest c) : c.rest.isEmpty = false := by
  have hpos : 0 < c.rest.length := Nat.lt_of_lt_of_le (Nat.zero_lt_succ _) h.length_le
  simpa using length_pos_iff.mp hpos

private theorem advance (h : Faces (k :: seen) next rest c) : Faces seen next rest c.advance := by
  obtain ⟨ts, hc, hts, hnext⟩ := h
  obtain ⟨t, ts, rfl, -, hts⟩ := map_eq_cons_iff.mp hts
  exact ⟨ts, Cursor.advance_of_rest hc, hts, hnext⟩

end Faces

/-- Whether a parser that stands before some tokens passes them, with a result that is so, and
without a fault or a new error, if the token after them is seen so. -/
def Passes (p : Parser α) (seen : List κ) (next : Option κ) (post : α → Prop) : Prop :=
  ∀ rest c, Faces seen next rest c →
    Ends p c (fun a c' => post a ∧ c'.rest = rest ∧ c'.errors = c.errors) fun _ _ => False

namespace Passes

variable {β : Type} {p : Parser α} {post : α → Prop} {f : β → Parser α}

/-- It is enough to see the kinds. -/
theorem of_kinds (h : Passes p (seen.map Sight.kind) (next.map Sight.kind) post) :
    Passes p seen next post := by
  have hof : Sight.kind ∘ (Sight.of : Token → κ) = Token.kind := funext Sight.kind_of
  rintro rest c ⟨ts, hc, rfl, rfl⟩
  exact h rest c ⟨ts, hc, by rw [map_map, hof]; rfl, by rw [Option.map_map, hof]; rfl⟩

/-- A result. -/
theorem pure {a : α} (h : post a) : Passes (pure a) ([] : List κ) next post := by
  rintro rest c ⟨ts, hc, hts, -⟩
  cases map_eq_nil_iff.mp hts
  exact ⟨h, hc, rfl⟩

/-- Less may be said. -/
theorem mono {post' : α → Prop} (h : Passes p seen next post) (hpost : ∀ a, post a → post' a) :
    Passes p seen next post' :=
  fun rest c hc => (h rest c hc).mono (fun a _ ha => ⟨hpost a ha.1, ha.2⟩) fun _ _ h => h

/-- One parser after another. -/
theorem bind {first : β → Prop} {q : Parser β} (h : Passes q seen (later.head?.or next) first)
    (hf : ∀ b, first b → Passes (f b) later next post) :
    Passes (q >>= f) (seen ++ later) next post := by
  rintro rest c ⟨ts, hc, hts, hnext⟩
  obtain ⟨us, vs, rfl, hus, hvs⟩ := map_eq_append_iff.mp hts
  have hfirst : Faces seen (later.head?.or next) (vs ++ rest) c :=
    ⟨us, by rw [hc, append_assoc],
      hus, by rw [head?_append, Option.map_or, hnext, ← head?_map, hvs]⟩
  rw [ends_bind]
  refine (h _ c hfirst).mono ?_ fun _ _ h => h
  rintro b c' ⟨hb, hc', herrs⟩
  rw [← herrs]
  exact hf b hb rest c' ⟨vs, hc', hvs, hnext⟩

/-- A parser that sees no more. -/
theorem bind_nil {first : β → Prop} {q : Parser β} (h : Passes q seen next first)
    (hf : ∀ b, first b → Passes (f b) [] next post) : Passes (q >>= f) seen next post := by
  rw [← append_nil seen]
  exact bind h hf

/-- Reading the cursor. -/
theorem get {f : Cursor → Parser α}
    (h : ∀ c rest, Faces seen next rest c → Passes (f c) seen next post) :
    Passes (get >>= f) seen next post :=
  fun rest c hc => ends_bind.mpr (h c rest hc rest c hc)

/-- Counting what is left. -/
theorem remaining {f : Nat → Parser α} (h : ∀ n, seen.length ≤ n → Passes (f n) seen next post) :
    Passes (remaining >>= f) seen next post :=
  fun rest c hc => ends_bind.mpr (h c.rest.length hc.length_le rest c hc)

/-- Passing a token. -/
theorem pass {f : Span → Parser α} (h : ∀ span, Passes (f span) seen next post) :
    Passes (pass >>= f) (k :: seen) next post := by
  intro rest c hc
  rw [ends_bind, ends_pass, ← Cursor.errors_advance]
  exact h _ rest _ hc.advance

/-- Seeing a kind. -/
theorem sees {f : Bool → Parser α} (hkind : (seen.head?.or next).map Sight.kind = some kind)
    (h : Passes (f true) seen next post) : Passes (sees kind >>= f) seen next post := by
  intro rest c hc
  rw [ends_bind, ends_sees, hc.kind?, hkind, beq_self_eq_true]
  exact h rest c hc

private theorem kind?_ne (hc : Faces seen next rest c)
    (hne : ∀ k ∈ seen.head?.or next, Sight.kind k ≠ kind) : c.kind? ≠ some kind := by
  rw [hc.kind?, Ne, Option.map_eq_some_iff]
  rintro ⟨k, hk, hkind⟩
  exact hne k hk hkind

/-- Seeing another kind. -/
theorem sees_of_ne {f : Bool → Parser α} (hne : ∀ k ∈ seen.head?.or next, Sight.kind k ≠ kind)
    (h : Passes (f false) seen next post) : Passes (Parser.sees kind >>= f) seen next post := by
  intro rest c hc
  rw [ends_bind, ends_sees, beq_eq_false_iff_ne.mpr (kind?_ne hc hne)]
  exact h rest c hc

/-- Accepting a kind. -/
theorem accept {f : Bool → Parser α} (hk : Sight.kind k = kind)
    (h : Passes (f true) seen next post) : Passes (accept kind >>= f) (k :: seen) next post := by
  intro rest c hc
  rw [ends_bind, ends_accept, if_pos (hc.kind?.trans (congrArg some hk)), ← Cursor.errors_advance]
  exact h rest _ hc.advance

/-- Refusing another kind. -/
theorem accept_of_ne {f : Bool → Parser α} (hne : ∀ k ∈ seen.head?.or next, Sight.kind k ≠ kind)
    (h : Passes (f false) seen next post) : Passes (Parser.accept kind >>= f) seen next post := by
  intro rest c hc
  rw [ends_bind, ends_accept, if_neg (kind?_ne hc hne)]
  exact h rest c hc

/-- Expecting a kind. -/
theorem expect {f : Span → Parser α} (hk : Sight.kind k = kind)
    (h : ∀ span, Passes (f span) seen next post) :
    Passes (expect kind what >>= f) (k :: seen) next post := by
  intro rest c hc
  rw [ends_bind, ends_expect, if_pos (hc.kind?.trans (congrArg some hk)), ← Cursor.errors_advance]
  exact h _ rest _ hc.advance

/-- Expecting a name. -/
theorem expectName {f : String × Span → Parser α} (hk : Sight.kind k = .name name)
    (h : ∀ span, Passes (f (name, span)) seen next post) :
    Passes (expectName what >>= f) (k :: seen) next post := by
  intro rest c hc
  rw [ends_bind, ends_expectName (hc.kind?.trans (congrArg some hk)), ← Cursor.errors_advance]
  exact h _ rest _ hc.advance

/-- A new node passes no token. -/
theorem fresh {span : Span} {f : Tag → Parser α} (h : ∀ tag, Passes (f tag) seen next post) :
    Passes (freshTag span >>= f) seen next post :=
  fun rest c hc => h ⟨c.nextId, span⟩ rest { c with nextId := c.nextId + 1 } hc

end Passes

end Parser

end BlockScript
