import BlockScript.Proofs.FoldRun
import BlockScript.Proofs.Growth

/-!
# Places and numbers of what is analyzed

What the analysis reports stands at an expression, a statement or a parameter of the program, or at
the place that a declaration has taken from one of these. The statements that it returns are those
of the program, but for initializers that have become assignments at the same place; the handler of
these assignments alone stands nowhere. No constant is added, and none gets another name. The
analysis uses no number of a node twice, and folding only takes nodes away.
-/

namespace BlockScript

variable {change : Definitions → Definitions} {span : Span}

open List
open Stmt (idsAll)

/-- Whether numbers are taken, each once, from given ones and from the free ones between two
bounds. -/
def Drawn (low high : Nat) (ids out : List Nat) : Prop :=
  low ≤ high ∧ ∃ fresh, Numbered low high fresh ∧ ∀ id, out.count id ≤ ids.count id + fresh.count id

namespace Drawn

variable {low middle high : Nat} {ids ids' out out' : List Nat}

private theorem of_count_le (low : Nat) (h : ∀ id, out.count id ≤ ids.count id) :
    Drawn low low ids out :=
  ⟨le_rfl, [], .nil, h⟩

private theorem next (low : Nat) : Drawn low (low + 1) ids [low] :=
  ⟨Nat.le_succ _, [low], Numbered.nil.cons_next le_rfl, fun _ => Nat.le_add_left _ _⟩

private theorem trans (h : Drawn low middle ids out) (h' : Drawn middle high (out ++ ids') out') :
    Drawn low high (ids ++ ids') out' := by
  obtain ⟨hle, fresh, hfresh, hcount⟩ := h
  obtain ⟨hle', fresh', hfresh', hcount'⟩ := h'
  refine ⟨Nat.le_trans hle hle', fresh ++ fresh', hfresh.append hfresh' hle hle', fun id => ?_⟩
  have hfirst := hcount id
  have hsnd := hcount' id
  rw [count_append] at hsnd ⊢
  rw [count_append]
  omega

private theorem numbered (h : Drawn low high ids out) (hids : Numbered 0 low ids) :
    Numbered 0 high out := by
  obtain ⟨hle, fresh, hfresh, hcount⟩ := h
  refine (hids.append hfresh (Nat.zero_le _) hle).of_count_le fun id => ?_
  rw [count_append]
  exact hcount id

end Drawn

private theorem Stmt.idsAll_eq_flatMap (stmts : List Stmt) :
    idsAll stmts = stmts.flatMap Stmt.ids := by
  induction stmts with
  | nil => rfl
  | cons stmt rest ih => rw [idsAll, flatMap_cons, ih]

/-! ### Definitions -/

private theorem Table.mem_values_insert {κ α : Type} [DecidableEq κ] {t : Table κ α} {key : κ}
    {value a : α} (h : a ∈ (t.insert key value).values) : a = value ∨ a ∈ t.values := by
  obtain ⟨entry, hentry, rfl⟩ := mem_map.mp h
  rcases mem_entries_insert hentry with rfl | hentry
  · exact .inl rfl
  · exact .inr (mem_map_of_mem hentry)

namespace Definitions

/-- Whether all declarations stand at places with a property. -/
structure Placed (P : Span → Prop) (d : Definitions) : Prop where
  scalars : ∀ v ∈ d.scalars.values, P v.span
  lists : ∀ l ∈ d.lists.values, P l.span
  constants : ∀ c ∈ d.constants.values, P c.span
  functions : ∀ f ∈ d.functions.values, P f.span
  events : ∀ e ∈ d.events.values, P e.span

variable {P : Span → Prop} {d d' : Definitions}

private theorem placed_bare_iff : d.bare.Placed P ↔ d.Placed P := by
  constructor
  · intro h
    exact ⟨by simpa [bare] using h.scalars, by simpa [bare] using h.lists,
      by simpa [bare] using h.constants, by simpa [bare] using h.functions,
      by simpa [bare] using h.events⟩
  · intro h
    exact ⟨by simpa [bare] using h.scalars, by simpa [bare] using h.lists,
      by simpa [bare] using h.constants, by simpa [bare] using h.functions,
      by simpa [bare] using h.events⟩

private theorem Placed.of_bare_eq (h : d.Placed P) (hbare : d'.bare = d.bare) : d'.Placed P := by
  rw [← placed_bare_iff, hbare]
  exact placed_bare_iff.mpr h

private theorem Placed.declares (hd : d.Placed P) (h : Analyzer.Declares P change) :
    (change d).Placed P := by
  have hinsert {α : Type} {t : Table String α} {place : α → Span} (ht : ∀ a ∈ t.values, P (place a))
      {name : String} {added : α} (hadded : P (place added)) :
      ∀ a ∈ (t.insert name added).values, P (place a) := by
    intro a ha
    rcases Table.mem_values_insert ha with rfl | ha
    · exact hadded
    · exact ht a ha
  cases h with
  | addVariable h => exact { hd with scalars := hinsert hd.scalars h }
  | addList h => exact { hd with lists := hinsert hd.lists h }
  | addConstant h => exact { hd with constants := hinsert hd.constants h }
  | addFunction h => exact { hd with functions := hinsert hd.functions h }
  | addEvent h => exact { hd with events := hinsert hd.events h }

private theorem Placed.unused (hd : d.Placed P) : ∀ x ∈ d.unused, P x.2.2 := by
  intro x hx
  have hmem : x ∈ d.unusedByKind := mem_mergeSort.mp hx
  unfold unusedByKind at hmem
  simp only [mem_append, mem_map, mem_filter] at hmem
  rcases hmem with (((⟨v, hv, rfl⟩ | ⟨l, hl, rfl⟩) | ⟨c, hc, rfl⟩) | ⟨f, hf, rfl⟩) | ⟨e, he, rfl⟩
  · exact hd.scalars v hv.1
  · exact hd.lists l hl.1
  · exact hd.constants c hc.1
  · exact hd.functions f hf.1
  · exact hd.events e he.1

end Definitions

/-- Whether all that an analyzer has recorded stands at places with a property, and a number is
free; a warning is no error. -/
structure AnalysisState.Placed (P : Span → Prop) (next : Nat) (s : AnalysisState) : Prop where
  defs : s.defs.Placed P
  errors : ∀ d ∈ s.errors, P d.span
  warnings : ∀ d ∈ s.warnings, P d.span ∧ d.isError = false
  nextId : s.nextId = next

namespace Analyzer

variable {P : Span → Prop} {next : Nat} {α β : Type} {Q : α → Prop} {Q' : β → Prop}
  {ids ids' : List Nat} {found : α → List Nat} {out : β → List Nat}

/-- Whether an analyzer records and reports at places with a property only, and takes no number. -/
abbrev Points (P : Span → Prop) (next : Nat) (x : Analyzer α) : Prop :=
  Stays (AnalysisState.Placed P next) (fun d : Diagnostic => P d.span) (fun _ => True) x

private theorem Points.define (h : ∀ d, d.Placed P → (change d).Placed P) :
    Points P next (define change) :=
  fun _ hs => ⟨trivial, h _ hs.defs, hs.errors, hs.warnings, hs.nextId⟩

private theorem points_warn (h : P span) (fault : AnalysisFault) :
    Points P next (warn fault span) := by
  refine fun s hs => ⟨trivial, hs.defs, hs.errors, ?_, hs.nextId⟩
  exact forall_mem_append.mpr ⟨hs.warnings, forall_mem_singleton.mpr ⟨h, rfl⟩⟩

private theorem AnalysisState.Placed.report {s : AnalysisState} (hs : s.Placed P next)
    {d : Diagnostic} (hd : P d.span) : { s with errors := s.errors ++ [d] }.Placed P next :=
  ⟨hs.defs, forall_mem_append.mpr ⟨hs.errors, forall_mem_singleton.mpr hd⟩, hs.warnings, hs.nextId⟩

private theorem declaring_points :
    Declaring (fun tag => P tag.span) P fun _ x => Points P next x where
  span h := h
  pure _ := .pure trivial
  bind hx hf := hx.bind fun a _ => hf a
  look h _ s := h s s
  fail h _ := .throw h
  report _ hd := fun _ hs => ⟨trivial, AnalysisState.Placed.report hs hd⟩
  reporting hx := fun s hs => by
    rw [ends_reporting]
    exact (hx s hs).mono (fun _ _ h => h) fun _ _ h =>
      ⟨trivial, AnalysisState.Placed.report h.2 h.1⟩
  mark h := .define fun d hd => hd.of_bare_eq (h d)
  recordType _ _ := fun _ hs => ⟨trivial, hs.defs, hs.errors, hs.warnings, hs.nextId⟩
  define h := .define fun _ hd => hd.declares h
  pending _ := fun _ hs => ⟨trivial, hs.defs, hs.errors, hs.warnings, hs.nextId⟩

/-- Whether an analyzer makes results with a property, with numbers that it draws from given ones,
and records and reports at places with a property only. -/
def Makes (P : Span → Prop) (ids : List Nat) (out : α → List Nat) (Q : α → Prop) (x : Analyzer α) :
    Prop :=
  ∀ next s, s.Placed P next →
    Ends x s (fun a s' => Q a ∧ ∃ high, Drawn next high ids (out a) ∧ s'.Placed P high)
    fun d s' => P d.span ∧ ∃ high, next ≤ high ∧ s'.Placed P high

namespace Makes

private theorem pure {a : α} (h : ∀ id, (found a).count id ≤ ids.count id) (ha : Q a) :
    Makes P ids found Q (pure a : Analyzer α) :=
  fun next _ hs => ⟨ha, next, .of_count_le next h, hs⟩

variable {x : Analyzer α} {f : α → Analyzer β}

private theorem bind (hx : Makes P ids found Q x)
    (hf : ∀ a, Q a → Makes P (found a ++ ids') out Q' (f a)) :
    Makes P (ids ++ ids') out Q' (x >>= f) := by
  intro next s hs
  rw [ends_bind]
  refine (hx next s hs).mono (fun a s' ⟨ha, high, hdrawn, hs'⟩ => ?_) fun _ _ h => h
  refine (hf a ha high s' hs').mono (fun b s'' ⟨hb, high', hdrawn', hs''⟩ => ?_) fun d s''
    ⟨hd, high', hle, hs''⟩ => ?_
  · exact ⟨hb, high', hdrawn.trans hdrawn', hs''⟩
  · exact ⟨hd, high', Nat.le_trans hdrawn.1 hle, hs''⟩

private theorem mono (hx : Makes P ids found Q x) (h : ∀ id, ids.count id ≤ ids'.count id) :
    Makes P ids' found Q x := by
  refine fun next s hs => (hx next s hs).mono
    (fun a s' ⟨ha, high, ⟨hle, fresh, hfresh, hcount⟩, hs'⟩ => ?_) fun _ _ h => h
  refine ⟨ha, high, ⟨hle, fresh, hfresh, fun id => ?_⟩, hs'⟩
  have hfirst := hcount id
  have hsnd := h id
  omega

private theorem bind_right (hx : Makes P ids' found Q x)
    (hf : ∀ a, Q a → Makes P (ids ++ found a) out Q' (f a)) :
    Makes P (ids ++ ids') out Q' (x >>= f) := by
  have hcomm (left right : List Nat) (id : Nat) :
      (left ++ right).count id ≤ (right ++ left).count id := by
    rw [count_append, count_append, Nat.add_comm]
  exact (hx.bind fun a ha => (hf a ha).mono (hcomm _ _)).mono (hcomm _ _)

private theorem after (hx : ∀ {next}, Points P next x)
    (hf : ∀ a, Makes P ids out Q' (f a)) : Makes P ids out Q' (x >>= f) := by
  intro next s hs
  rw [ends_bind]
  exact (hx s hs).mono (fun a s' h => hf a next s' h.2) fun _ _ h => ⟨h.1, next, le_rfl, h.2⟩

private theorem fail (h : P span) (fault : AnalysisFault) : Makes P ids found Q (fail fault span) :=
  fun next _ hs => ⟨h, next, le_rfl, hs⟩

private theorem fail_bind (h : P span) (fault : AnalysisFault) :
    Makes P ids out Q' (Analyzer.fail fault span >>= f) :=
  fun next _ hs => ⟨h, next, le_rfl, hs⟩

private theorem reporting (hx : Makes P ids found Q x) :
    Makes P ids (fun result => result.toList.flatMap found) (fun result => ∀ a ∈ result, Q a)
    (reporting x) := by
  intro next s hs
  rw [ends_reporting]
  refine (hx next s hs).mono (fun a s' ⟨ha, high, hdrawn, hs'⟩ => ?_) fun d s'
    ⟨hd, high, hle, hs'⟩ => ?_
  · exact ⟨fun _ h => Option.some.inj h ▸ ha, high, by simpa using hdrawn, hs'⟩
  · exact ⟨nofun, high, ⟨hle, [], .nil, fun id => Nat.zero_le _⟩,
      AnalysisState.Placed.report hs' hd⟩

private theorem mapM {given : α → List Nat} {l : List α}
    (hf : ∀ a ∈ l, Makes P (given a) out Q' (f a)) :
    Makes P (l.flatMap given) (·.flatMap out) (fun out => ∀ b ∈ out, Q' b) (l.mapM f) := by
  induction l with
  | nil => exact .pure (fun _ => le_rfl) (forall_mem_nil _)
  | cons a rest ih =>
    rw [forall_mem_cons] at hf
    rw [mapM_cons, flatMap_cons]
    refine hf.1.bind fun b hb => (ih hf.2).bind_right fun more hmore => .pure (fun _ => le_rfl) ?_
    exact forall_mem_cons.mpr ⟨hb, hmore⟩

end Makes

/-! ### Declarations -/

section Declarations

variable {span : Span} (h : P span) (scope : Scope) (name : String) (type : Option DataType)
  {value : Option Expr} (hvalue : ∀ e ∈ value, e.Placed P)

include h

private theorem makes_defaultInitializer :
    Makes P [] (fun out => out.1.ids) (fun out => out.1.Placed P)
    (defaultInitializer name type span) := by
  unfold defaultInitializer
  split
  · exact .fail h _
  split
  · exact .fail h _
  · rintro next s ⟨hdefs, herrs, hwarns, rfl⟩
    exact ⟨h, s.nextId + 1, .next s.nextId, hdefs, herrs, hwarns, rfl⟩

include hvalue

private theorem makes_scalarInitializer :
    Makes P (Expr.idsOf? value) (fun out => out.1.ids) (fun out => out.1.Placed P)
      (scalarInitializer scope name type value span) := by
  unfold scalarInitializer
  dsimp only
  split
  · exact .fail_bind h _
  split
  · exact makes_defaultInitializer h name type
  · rename_i value
    have hplaced := hvalue value rfl
    have hids : Expr.idsOf? (some value) = value.ids := by simp [Expr.idsOf?]
    refine .after (declaring_points.initializerType scope name hplaced) fun found => ?_
    split
    · exact .fail_bind hplaced.span _
    split
    · exact .fail_bind hplaced.span _
    split
    · exact .fail_bind hplaced.span _
    · exact .pure (fun id => by rw [hids]) hplaced

variable (N : String → Prop)

private theorem makes_declareVariable (hoisted : Bool) :
    Makes P (Expr.idsOf? value) (fun out => idsAll (out.1 :: out.2.toList))
      (fun out => Stmt.AllOf (.placed P N False) (out.1 :: out.2.toList))
      (declareVariable scope name type value hoisted span) := by
  have hunchanged : Makes P (Expr.idsOf? value) (fun out => idsAll (out.1 :: out.2.toList))
      (fun out => Stmt.AllOf (.placed P N False) (out.1 :: out.2.toList))
      (Pure.pure (.varDecl name type value hoisted span, none)) :=
    .pure (fun id => by simp [idsAll, Stmt.ids]) ⟨⟨h, hvalue, False.elim⟩, trivial⟩
  unfold declareVariable
  dsimp only
  split
  · refine .after (declaring_points.listElement scope name type hvalue h) fun element => ?_
    split
    · exact .after (declaring_points.define (.addList h name _)) fun _ => hunchanged
    · exact hunchanged
  split
  · split
    · exact .after (declaring_points.define (.addVariable h name _)) fun _ => hunchanged
    · exact hunchanged
  · rw [← append_nil (Expr.idsOf? value)]
    refine (makes_scalarInitializer h scope name type hvalue).reporting.bind fun found hfound => ?_
    split
    · refine .after (declaring_points.define (.addVariable h name _)) fun _ =>
        .pure (fun id => ?_) ?_
      · simp [idsAll, Stmt.ids, Expr.idsOf?]
      · exact ⟨⟨h, by rintro _ ⟨⟩, False.elim⟩, ⟨h, hfound _ rfl⟩, trivial⟩
    · exact .pure (fun id => by simp [idsAll, Stmt.ids, Expr.idsOf?])
        ⟨⟨h, by rintro _ ⟨⟩, False.elim⟩, trivial⟩

end Declarations

/-! ### Statements -/

variable {N : String → Prop} {W : Prop} (scope : Scope)

mutual

private theorem makes_statement (scope : Scope) : ∀ {stmt : Stmt}, stmt.Of (.placed P N W) →
    Makes P stmt.ids (fun out => idsAll out.1) (fun out => Stmt.AllOf (.placed P N False) out.1)
      (statement scope stmt)
  | .varDecl name type value hoisted span, h => by
    rw [statement]
    refine .after (declaring_points.checkUnique h.1 scope name) fun free => ?_
    split
    · rw [Stmt.ids, ← append_nil (Expr.idsOf? value)]
      exact (makes_declareVariable h.1 scope name type h.2.1 N hoisted).bind fun out hout =>
        .pure (fun id => by simp) hout
    · exact .pure (fun _ => Nat.zero_le _) trivial
  | .constDecl name type value span, h => by
    rw [statement]
    refine .after (declaring_points.checkUnique h.1 scope name) fun free => ?_
    split
    · exact .after (declaring_points.declareConstant scope name type h.2.1 h.1) fun _ =>
        .pure (fun id => by simp [idsAll]) ⟨h, trivial⟩
    · exact .pure (fun id => by simp [idsAll]) ⟨h, trivial⟩
  | .funcDecl .., h | .event .., h => by
    rw [statement]
    exact .after (declaring_points.reportFault h.1 _) fun _ =>
      .pure (fun _ => Nat.zero_le _) trivial
  | .call name args span, h => by
    rw [statement]
    refine .after (declaring_points.reporting (declaring_points.call scope name h.2 h.1)) fun _ =>
      ?_
    exact .pure (fun id => by simp [idsAll]) ⟨h, trivial⟩
  | .assign target op value span, h => by
    rw [statement]
    refine .after (declaring_points.reporting (declaring_points.assignment scope target op h.2 h.1))
      fun _ => ?_
    exact .pure (fun id => by simp [idsAll]) ⟨h, trivial⟩
  | .branch condition thenBody elseBody span, h => by
    rw [statement]
    refine .after (declaring_points.expectType scope h.2.1 _ _) fun _ => ?_
    have hids (id : Nat) : (idsAll thenBody ++ (condition.ids ++ idsAll elseBody)).count id ≤
        (Stmt.ids (.branch condition thenBody elseBody span)).count id := by
      simp only [Stmt.ids, count_append]
      omega
    refine .mono ?_ hids
    refine (makes_statements scope false h.2.2.1).bind fun thenOut hthen => ?_
    rw [← append_assoc]
    refine (makes_statements scope false h.2.2.2).bind_right fun elseOut helse =>
      .pure (fun id => ?_) ?_
    · simp only [idsAll, Stmt.ids, count_append, count_nil]
      omega
    · exact ⟨⟨h.1, h.2.1, hthen, helse⟩, trivial⟩
  | .loop kind body span, h => by
    unfold statement
    refine .after (declaring_points.loopHeader scope h.2.1) fun _ => ?_
    refine (makes_statements scope false h.2.2).bind_right fun out hout => .pure (fun id => ?_) ?_
    · simp [idsAll, Stmt.ids]
    · exact ⟨⟨h.1, h.2.1, hout⟩, trivial⟩

private theorem makes_statements (scope : Scope) (stopped : Bool) :
    ∀ {stmts : List Stmt}, Stmt.AllOf (.placed P N W) stmts → Makes P (idsAll stmts) idsAll
      (Stmt.AllOf (.placed P N False)) (statements scope stopped stmts)
  | [], _ => by
    rw [statements]
    exact .pure (fun _ => le_rfl) trivial
  | stmt :: rest, h => by
    rw [statements]
    dsimp only
    have hmore : Makes P (idsAll (stmt :: rest)) idsAll (Stmt.AllOf (.placed P N False)) (do
        let (first, stops) ← statement scope stmt
        return first ++ (← statements scope (stopped || stops) rest)) := by
      refine (makes_statement scope h.1).bind fun first hfirst => ?_
      refine (makes_statements scope _ h.2).bind_right fun more hmore => .pure (fun id => ?_) ?_
      · rw [Stmt.idsAll_append]
      · exact Stmt.allOf_append hfirst hmore
    split
    · exact .after (points_warn h.1.span _) fun _ => hmore
    · exact hmore

end

/-! ### Programs -/

private theorem makes_declareItem {item : Stmt} (h : item.Of (.placed P N W)) :
    Makes P item.ids (fun out => out.1.stmt.ids ++ idsAll out.2)
      (fun out => out.1.stmt.Of (.placed P N False) ∧ Stmt.AllOf (.placed P N False) out.2)
      (declareItem scope item) := by
  unfold declareItem
  split
  · rename_i name type value hoisted span
    refine .after (declaring_points.pending (·.erase name)) fun _ => ?_
    rw [Stmt.ids, ← append_nil (Expr.idsOf? value)]
    refine (makes_declareVariable h.1 scope name type h.2.1 N hoisted).bind fun out hout =>
      .pure (fun id => ?_) ?_
    · simp [Staged.stmt, idsAll]
    · exact ⟨hout.1, hout.2⟩
  · refine .after (declaring_points.pending (·.erase _)) fun _ => ?_
    refine .after (declaring_points.declareConstant scope _ _ h.2.1 h.1) fun _ =>
      .pure (fun id => ?_) ⟨h, trivial⟩
    simp [Staged.stmt, idsAll]
  · exact .pure (fun id => by simp [Staged.stmt, idsAll])
      ⟨h.mono (fun _ h => h) False.elim, trivial⟩

private theorem makes_declareItems {items : List (Stmt × Bool)}
    (h : ∀ p ∈ items, p.1.Of (.placed P N W)) :
    Makes P (items.flatMap fun item => item.1.ids)
    (fun out => out.1.flatMap (·.stmt.ids) ++ idsAll out.2)
      (fun out => (∀ staged ∈ out.1, staged.stmt.Of (.placed P N False)) ∧
      Stmt.AllOf (.placed P N False) out.2) (declareItems scope items) := by
  induction items with
  | nil => exact .pure (fun _ => le_rfl) ⟨forall_mem_nil _, trivial⟩
  | cons first rest ih =>
    obtain ⟨item, counts⟩ := first
    rw [forall_mem_cons] at h
    have hfirst : Makes P item.ids (fun out => out.1.stmt.ids ++ idsAll out.2)
        (fun out => out.1.stmt.Of (.placed P N False) ∧ Stmt.AllOf (.placed P N False) out.2)
        (if counts then declareItem scope item else Pure.pure (.settled item, [])) := by
      split
      · exact makes_declareItem scope h.1
      · exact .pure (fun id => by simp [Staged.stmt, idsAll]) ⟨h.1.mono (fun _ h => h) False.elim,
          trivial⟩
    rw [declareItems_cons, flatMap_cons]
    refine hfirst.bind fun out hout => (ih h.2).bind_right fun more hmore => .pure (fun id => ?_) ?_
    · simp only [flatMap_cons, Stmt.idsAll_append, count_append]
      omega
    · exact ⟨forall_mem_cons.mpr ⟨hout.1, hmore.1⟩, Stmt.allOf_append hout.2 hmore.2⟩

private theorem makes_itemBody {staged : Staged} (h : staged.stmt.Of (.placed P N False)) :
    Makes P staged.stmt.ids Stmt.ids (Stmt.Of (.placed P N False)) (itemBody scope staged) := by
  unfold itemBody
  split
  · exact .pure (fun _ => le_rfl) h
  · rename_i name params body span endLine
    rw [Staged.stmt, Stmt.ids, ← append_nil (idsAll body)]
    refine (makes_statements _ false h.2.2).bind fun out hout =>
      .pure (fun id => ?_) ⟨h.1, h.2.1, hout⟩
    simp [Stmt.ids]
  · rename_i kind name param body span endLine
    have hbody :
        Makes P (Expr.idsOf? param ++ idsAll body) Stmt.ids (Stmt.Of (.placed P N False)) (do
        let body ← statements scope false body
        return .event kind name param body span endLine) :=
      (makes_statements scope false h.2.2.1).bind_right fun out hout =>
        .pure (fun _ => le_rfl) ⟨h.1, h.2.1, hout, nofun⟩
    dsimp only
    split
    · exact .after (declaring_points.checkEvent scope name h.2.1 h.1) fun _ => hbody
    · exact hbody
  · exact .pure (fun _ => le_rfl) h

private theorem points_warnUnused : Points P next (warnUnused scope) := by
  intro s hs
  rw [Ends, run_warnUnused]
  refine ⟨trivial, hs.defs, hs.errors, forall_mem_append.mpr ⟨hs.warnings, ?_⟩, hs.nextId⟩
  unfold AnalysisOptions.unusedWarnings
  split
  · exact forall_mem_map.mpr fun p hp => ⟨hs.defs.unused p hp, rfl⟩
  · exact forall_mem_nil _

private theorem idsAll_startupHandler (assigns : List Stmt) :
    idsAll (startupHandler assigns) = idsAll assigns := by
  cases assigns with
  | nil => rfl
  | cons first rest => simp [startupHandler, idsAll, Stmt.ids, Expr.idsOf?]

private theorem ids_zip_sublist (items : List Stmt) (counts : List Bool) :
    List.Sublist ((items.zip counts).flatMap fun item => item.1.ids) (idsAll items) := by
  induction items generalizing counts with
  | nil => exact nil_sublist _
  | cons item rest ih =>
    cases counts with
    | nil => exact nil_sublist _
    | cons count more =>
      rw [zip_cons_cons, flatMap_cons, idsAll]
      exact (ih more).append_left _

private theorem makes_program {items : List Stmt} (h : ∀ item ∈ items, item.Of (.placed P N W)) :
    Makes P (idsAll items) idsAll (Stmt.AllOf ⟨fun tag => P tag.span, fun _ => True, N, False⟩)
      (program scope items) := by
  have hannounce {next : Nat} : ∀ {items : List Stmt}, (∀ item ∈ items, item.Of (.placed P N W)) →
      Points P next (items.mapM (announce scope)) := by
    intro items h
    induction items with
    | nil => exact .pure trivial
    | cons item rest ih =>
      rw [forall_mem_cons] at h
      rw [mapM_cons]
      exact Stays.bind (declaring_points.announce scope h.1) fun _ _ => (ih h.2).bind fun _ _ =>
        .pure trivial
  refine .after (hannounce h) fun counts => ?_
  refine Makes.mono ?_ fun id => (ids_zip_sublist items counts).count_le id
  rw [← append_nil (List.flatMap _ (items.zip counts))]
  refine (makes_declareItems scope fun p hp => h p.1 (of_mem_zip hp).1).bind fun out hout => ?_
  rw [append_nil]
  refine (Makes.mapM fun staged hstaged => makes_itemBody scope (hout.1 staged hstaged)).bind
    fun analyzed hana => ?_
  refine .after (points_warnUnused scope) fun _ => .pure (fun id => ?_) ?_
  · rw [Stmt.idsAll_append, idsAll_startupHandler, Stmt.idsAll_eq_flatMap analyzed]
    simp only [count_append]
    omega
  have hassigns : Stmt.AllOf ⟨fun tag => P tag.span, fun _ => True, N, False⟩ out.2 :=
    .mono (fun _ _ => trivial) id hout.2
  refine Stmt.allOf_append ?_ (.mono (fun _ _ => trivial) id (Stmt.allOf_iff.mpr hana))
  unfold startupHandler
  split
  · trivial
  · exact ⟨⟨trivial, nofun, hassigns, nofun⟩, trivial⟩

end Analyzer

/-- What the analysis returns and reports stands where the program does, and its constants have the
names of constants of the program. If the nodes are numbered they stay so, whether errors are found
or not. -/
theorem analyze_of {P : Span → Prop} {N : String → Prop} {W : Prop} (catalog : Catalog)
    (options : AnalysisOptions) {program : Program}
    (h : ∀ item ∈ program.statements, item.Of (.placed P N W)) :
    Stmt.AllOf ⟨fun tag => P tag.span, fun _ => True, N, False⟩
        (analyze catalog options program).program.statements ∧
      (∀ d ∈ (analyze catalog options program).errors, P d.span) ∧
      (∀ d ∈ (analyze catalog options program).warnings, P d.span ∧ d.isError = false) ∧
      (Numbered 0 program.nextId (idsAll program.statements) →
        Numbered 0 (analyze catalog options program).program.nextId
          (idsAll (analyze catalog options program).program.statements)) := by
  have hstart : AnalysisState.Placed P program.nextId { nextId := program.nextId } :=
    ⟨⟨nofun, nofun, nofun, nofun, nofun⟩, forall_mem_nil _, forall_mem_nil _, rfl⟩
  have hprogram := Analyzer.makes_program { catalog, options } h _ _ hstart
  unfold analyze
  cases hrun :
      Analyzer.program { catalog, options } program.statements { nextId := program.nextId } with
  | ok statements s =>
    obtain ⟨hstmts, high, hdrawn, hs⟩ := hprogram.of_ok hrun
    cases hs.nextId
    exact ⟨hstmts, hs.errors, hs.warnings, hdrawn.numbered⟩
  | error d s =>
    obtain ⟨hd, high, hle, hs⟩ := hprogram.of_error hrun
    cases hs.nextId
    have herrs := forall_mem_append.mpr ⟨hs.errors, forall_mem_singleton.mpr hd⟩
    exact ⟨.mono (fun _ _ => trivial) False.elim (Stmt.allOf_iff.mpr h), herrs, hs.warnings,
      fun hids => hids.mono le_rfl hle⟩

/-- Numbers identify the nodes of a program in all its forms: they are different, and below the next
free one, after parsing, after the analysis and after folding. Where folding leaves a node or puts a
literal in its place, the number is the one of that node. -/
theorem numbered_stages (tokens : List Token) (catalog : Catalog) (options : AnalysisOptions)
    (types : TypeTable) (pictures : Pictures) (defs : Definitions) :
    let parsed := (parse tokens).program
    let analyzed := (analyze catalog options parsed).program
    let folded := (analyzed.fold catalog types pictures defs).program
    Numbered 0 parsed.nextId (Stmt.idsAll parsed.statements) ∧
      Numbered 0 analyzed.nextId (Stmt.idsAll analyzed.statements) ∧
      Numbered 0 folded.nextId (Stmt.idsAll folded.statements) ∧
      Stmt.PrunedAll analyzed.statements folded.statements := by
  intro parsed analyzed folded
  have hparsed : Numbered 0 parsed.nextId (Stmt.idsAll parsed.statements) := parse_numbered tokens
  have hana : Numbered 0 analyzed.nextId (Stmt.idsAll analyzed.statements) :=
    (analyze_of (P := fun _ => True) (N := fun _ => True) (W := False) catalog options
      fun item _ => item.of_true).2.2.2 hparsed
  have hpruned : Stmt.PrunedAll analyzed.statements folded.statements :=
    (Program.prunedAll_fold (P := fun _ => True) (Stmt.allOf_true analyzed.statements)).1
  have hsublist : List.Sublist (Stmt.idsAll folded.statements) (Stmt.idsAll analyzed.statements) :=
    hpruned.ids_sublist
  have hbound : ∀ id ∈ Stmt.idsAll folded.statements, 0 ≤ id ∧ id < folded.nextId :=
    fun id hid => hana.2 id (hsublist.subset hid)
  exact ⟨hparsed, hana, ⟨hana.1.sublist hsublist, hbound⟩, hpruned⟩

end BlockScript
