import BlockScript.Proofs.AnalyzerSteps

/-!
# What the analysis changes

Analyzing an expression declares nothing: it marks what is used, reports errors and records the
types of the nodes. Analyzing a statement declares new names as well. Errors that are reported stay,
and so do declarations and the types of all other nodes.
-/

namespace BlockScript

section

variable {s'' : AnalysisState}

open List

namespace AnalysisState

/-- Whether there are only errors between two states. -/
def Reports (s s' : AnalysisState) : Prop :=
  ∃ more, s'.errors = s.errors ++ more ∧ ∀ d ∈ more, d.isError = true

/-- Nothing is reported. -/
theorem Reports.refl (s : AnalysisState) : Reports s s := ⟨[], by simp, by simp⟩

variable {s s' : AnalysisState}

/-- More is reported after more. -/
theorem Reports.trans (h : Reports s s') (h' : Reports s' s'') : Reports s s'' := by
  obtain ⟨more, hmore, herrs⟩ := h
  obtain ⟨more', hmore', herrs'⟩ := h'
  refine ⟨more ++ more', by rw [hmore', hmore, append_assoc], fun d hd => ?_⟩
  rcases mem_append.mp hd with hd | hd
  · exact herrs d hd
  · exact herrs' d hd

private theorem Reports.of_nil (h : Reports s s') (hs' : s'.errors = []) : s.errors = [] := by
  obtain ⟨more, hmore, _⟩ := h
  rw [hs'] at hmore
  exact (append_eq_nil_iff.mp hmore.symm).1

/-- Where nothing is reported in all, nothing is reported in either part. -/
theorem Reports.split (h : Reports s s') (h' : Reports s' s'')
    (heq : s''.errors = s.errors) : s'.errors = s.errors ∧ s''.errors = s'.errors := by
  obtain ⟨more, hmore, _⟩ := h
  obtain ⟨more', hmore', _⟩ := h'
  have hnil : more = [] ∧ more' = [] := by simpa [hmore, heq] using hmore'
  simp [hmore, hmore', hnil]

/-- Whether the second state declares what the first one does, and differs in the types of some
nodes only. -/
structure Touches (nodes : Nat → Prop) (s s' : AnalysisState) : Prop where
  errors : Reports s s'
  bare : s'.defs.bare = s.defs.bare
  pending : s'.pending = s.pending
  nextId : s'.nextId = s.nextId
  types : ∀ id, ¬ nodes id → s'.types.get? id = s.types.get? id

/-- What an analyzer may declare, and which nodes it may give types. -/
structure Footprint where
  /-- The names that may be declared, by their kinds. -/
  names : DeclarationKind → String → Prop
  /-- The nodes that may get types. -/
  nodes : Nat → Prop

/-- Whether the second state comes from the first by new declarations and by types for nodes that
are allowed or new. -/
structure Grows (w : Footprint) (s s' : AnalysisState) : Prop where
  errors : Reports s s'
  defs : s.defs.Grows w.names s'.defs
  nextId : s.nextId ≤ s'.nextId
  types : ∀ id < s.nextId, ¬ w.nodes id → s'.types.get? id = s.types.get? id

variable {nodes : Nat → Prop} {w : Footprint} {s s' s'' : AnalysisState}

/-- Nothing is touched. -/
theorem Touches.refl (s : AnalysisState) : Touches nodes s s where
  errors := .refl s
  bare := rfl
  pending := rfl
  nextId := rfl
  types _ _ := rfl

/-- More is touched after more. -/
theorem Touches.trans (h : Touches nodes s s') (h' : Touches nodes s' s'') :
    Touches nodes s s'' where
  errors := h.errors.trans h'.errors
  bare := h'.bare.trans h.bare
  pending := h'.pending.trans h.pending
  nextId := h'.nextId.trans h.nextId
  types id hid := (h'.types id hid).trans (h.types id hid)

/-- Marks leave what is looked up. -/
theorem Touches.lookup (h : Touches nodes s s') : s'.defs.lookup = s.defs.lookup :=
  Definitions.lookup_eq_of_bare_eq h.bare

/-- Nothing has grown. -/
theorem Grows.refl (s : AnalysisState) : Grows w s s where
  errors := .refl s
  defs := .refl _
  nextId := le_rfl
  types _ _ _ := rfl

/-- More grows after more. -/
theorem Grows.trans (h : Grows w s s') (h' : Grows w s' s'') : Grows w s s'' where
  errors := h.errors.trans h'.errors
  defs := h.defs.trans h'.defs
  nextId := Nat.le_trans h.nextId h'.nextId
  types id hlt hid :=
    (h'.types id (Nat.lt_of_lt_of_le hlt h.nextId) hid).trans (h.types id hlt hid)

instance : Std.Refl (Touches nodes) := ⟨Touches.refl⟩

instance : Trans (Touches nodes) (Touches nodes) (Touches nodes) := ⟨Touches.trans⟩

instance : Std.Refl (Grows w) := ⟨Grows.refl⟩

instance : Trans (Grows w) (Grows w) (Grows w) := ⟨Grows.trans⟩

private theorem Touches.grows (h : Touches nodes s s') (hnodes : ∀ id, nodes id → w.nodes id) :
    Grows w s s' where
  errors := h.errors
  defs := .of_bare_eq h.bare
  nextId := Nat.le_of_eq h.nextId.symm
  types id _ hid := h.types id fun hnode => hid (hnodes id hnode)

private theorem Grows.widen {names : DeclarationKind → String → Prop}
    (h : Grows ⟨names, w.nodes⟩ s s') (hnames : ∀ kind name, names kind name → w.names kind name) :
    Grows w s s' where
  errors := h.errors
  defs := h.defs.widen hnames
  nextId := h.nextId
  types := h.types

end AnalysisState

namespace Analyzer

open AnalysisState

variable {α β : Type} {R : AnalysisState → AnalysisState → Prop}
  {s : AnalysisState} {fault : Diagnostic → AnalysisState → Prop} {post : α → AnalysisState → Prop}

/-- Whether an analyzer changes a state as `R` says, also where it fails, and fails with an error
only. -/
def WithinAt (R : AnalysisState → AnalysisState → Prop) (x : Analyzer α) (s : AnalysisState) :
    Prop :=
  Ends x s (fun _ s' => R s s') fun d s' => R s s' ∧ d.isError = true

/-- Whether an analyzer changes all states as `R` says. -/
def Within (R : AnalysisState → AnalysisState → Prop) (x : Analyzer α) : Prop := ∀ s, WithinAt R x s

/-- A failure becomes a report. -/
@[simp] theorem ends_reporting {x : Analyzer α} {post : Option α → AnalysisState → Prop} :
    Ends (reporting x) s post fault ↔ Ends x s (fun a s' => post (some a) s')
        fun d s' => post none { s' with errors := s'.errors ++ [d] } := by
  unfold Ends reporting
  cases x s <;> exact Iff.rfl

/-- Reading the definitions. -/
@[simp] theorem ends_defs {post : Definitions → AnalysisState → Prop} :
    Ends defs s post fault ↔ post s.defs s := Iff.rfl

private theorem ends_of_errors {x : Analyzer α} (hx : WithinAt R x s)
    (hR : ∀ s', R s s' → Reports s s') (hs : s.errors ≠ []) :
    Ends x s (fun a s' => s'.errors = [] → post a s') fun _ _ => True :=
  Ends.mono hx (fun _ s' h hclean => absurd ((hR s' h).of_nil hclean) hs) fun _ _ _ => trivial

private theorem ends_after_fault {k : Unit → Analyzer α} (fault : AnalysisFault) (span : Span)
    (hk : Within R (k ())) (hR : ∀ {s s'}, R s s' → Reports s s') :
    Ends (reportFault fault span >>= k) s (fun a s' => s'.errors = [] → post a s') fun _ _ =>
    True := by
  rw [ends_bind]
  exact ends_of_errors (hk _) (fun _ h => hR h) (by simp)

namespace Within

variable {f : α → Analyzer β}

/-- One analyzer after another. -/
theorem bind [Trans R R R] {x : Analyzer α} (hx : Within R x) (hf : ∀ a, Within R (f a)) :
    Within R (x >>= f) := by
  intro s
  unfold WithinAt
  rw [ends_bind]
  refine (hx s).mono (fun a s' h => ?_) fun _ _ h => h
  refine (hf a s').mono (fun _ _ h' => Trans.trans h h') fun _ _ h' => ?_
  exact ⟨Trans.trans h h'.1, h'.2⟩

/-- A result. -/
theorem pure [Std.Refl R] (a : α) : Within R (pure a : Analyzer α) := fun s => Std.Refl.refl s

/-- Reading the state. -/
theorem get [Std.Refl R] : Within R (get : Analyzer AnalysisState) := fun s => Std.Refl.refl s

/-- A failure. -/
theorem fail [Std.Refl R] (fault : AnalysisFault) (span : Span) :
    Within R (fail fault span : Analyzer α) :=
  fun s => ⟨Std.Refl.refl s, rfl⟩

/-- All members of a list. -/
theorem mapM_mem [Std.Refl R] [Trans R R R] {l : List α} (hf : ∀ a ∈ l, Within R (f a)) :
    Within R (l.mapM f) := by
  induction l with
  | nil => exact .pure _
  | cons a rest ih =>
    rw [mapM_cons]
    refine (hf a mem_cons_self).bind fun _ => ?_
    exact (ih fun a ha => hf a (mem_cons_of_mem _ ha)).bind fun _ => .pure _

/-- Every member of a list. -/
theorem mapM [Std.Refl R] [Trans R R R] (hf : ∀ a, Within R (f a)) (l : List α) :
    Within R (l.mapM f) :=
  mapM_mem fun a _ => hf a

end Within

section Expressions

variable {nodes : Nat → Prop} (scope : Scope)

/-- Reporting touches nothing. -/
theorem within_report {d : Diagnostic} (hd : d.isError) : Within (Touches nodes) (report d) :=
  fun s => ⟨⟨[d], rfl, by simpa using hd⟩, rfl, rfl, rfl, fun _ _ => rfl⟩

/-- Nor do reports of faults. -/
theorem within_reportFault (fault : AnalysisFault) (span : Span) :
    Within (Touches nodes) (reportFault fault span) :=
  within_report rfl

private theorem within_reporting {x : Analyzer α} (hx : Within (Touches nodes) x) :
    Within (Touches nodes) (reporting x) := by
  intro s
  unfold WithinAt
  rw [ends_reporting]
  refine (hx s).mono (fun _ _ h => h) fun d s' ⟨h, hd⟩ => ?_
  exact h.trans ⟨⟨[d], rfl, by simpa using hd⟩, rfl, rfl, rfl, fun _ _ => rfl⟩

private theorem within_mark {change : Definitions → Definitions}
    (hchange : ∀ d, (change d).bare = d.bare) : Within (Touches nodes) (define change) :=
  fun s => ⟨.refl _, hchange s.defs, rfl, rfl, fun _ _ => rfl⟩

private theorem within_recordType {id : Nat} (hid : nodes id) (type : DataType) :
    Within (Touches nodes) (recordType id type) := by
  refine fun s => ⟨.refl _, rfl, rfl, rfl, fun other hother => ?_⟩
  rw [Table.get?_insert, if_neg]
  rintro rfl
  exact hother hid

private theorem closed_touches :
    Closed (fun tag => nodes tag.id) (fun _ => True) fun _ x => Within (Touches nodes) x where
  span _ := trivial
  pure := .pure
  bind := .bind
  look h _ s := h s s
  fail _ fault := .fail fault _
  report hd _ := within_report hd
  reporting := within_reporting
  mark := within_mark
  recordType := within_recordType

/-- Typing touches nodes in it. -/
theorem within_exprType (e : Expr) (h : ∀ id ∈ e.ids, nodes id) :
    Within (Touches nodes) (exprType scope e) :=
  closed_touches.exprType scope (Expr.tagged_of_ids h)

/-- Typing touches nodes in them. -/
theorem within_exprTypes (es : List Expr) (h : ∀ id ∈ Expr.idsAll es, nodes id) :
    Within (Touches nodes) (exprTypes scope es) :=
  closed_touches.exprTypes scope (Expr.taggedAll_of_ids h)

/-- A call touches no node. -/
theorem within_callType (name : String) (args : List Expr) (types : List DataType)
    (span : Span) : Within (Touches nodes) (callType scope name args types span) :=
  closed_touches.callType trivial scope name (fun _ _ => trivial) types

end Expressions

end Analyzer

end

/-!
## Declaring names

A statement declares its own name only, and only if the name is new.
-/

section

variable {value : Option Expr} {name : String} {nodes : Nat → Prop}

open AnalysisState

namespace Analyzer

variable {α β : Type} {R S : AnalysisState → AnalysisState → Prop} {s : AnalysisState}
  {x : Analyzer α} (scope : Scope) (type : Option DataType)

private theorem WithinAt.bind [Trans R R R] {f : α → Analyzer β} (hx : WithinAt S x s)
    (hS : ∀ s', S s s' → R s s') (hf : ∀ a s', S s s' → WithinAt R (f a) s') :
    WithinAt R (x >>= f) s := by
  unfold WithinAt
  rw [ends_bind]
  refine Ends.mono hx (fun a s' h => ?_) fun _ _ h => ⟨hS _ h.1, h.2⟩
  refine (hf a s' h).mono (fun _ _ h' => Trans.trans (hS s' h) h') fun _ _ h' => ?_
  exact ⟨Trans.trans (hS s' h) h'.1, h'.2⟩

private theorem WithinAt.mono (hx : WithinAt S x s) (hS : ∀ s', S s s' → R s s') : WithinAt R x s :=
  Ends.mono hx (fun _ s' h => hS s' h) fun _ s' h => ⟨hS s' h.1, h.2⟩

/-- Whether a name may be declared: it is no parameter here, it is not declared, and it is not
announced. -/
def Free (scope : Scope) (name : String) (s : AnalysisState) : Prop :=
  scope.param? s.defs name = none ∧ s.defs.Undeclared name ∧ s.pending.get? name = none

/-- A name that passes the check is free, and a name that does not is reported. -/
theorem checkUnique_ends (name : String) (span : Span) (s : AnalysisState) :
    Ends (checkUnique scope name span) s (fun free s' => (free ∧ s' = s ∧ Free scope name s) ∨
      (free = false ∧ Touches (fun _ => False) s s' ∧ s'.errors ≠ [])) fun _ _ => False := by
  unfold checkUnique
  rw [ends_bind, ends_get]
  dsimp only
  split
  · refine Or.inr ⟨rfl, within_reportFault _ _ s, ?_⟩
    simp
  · rename_i howner
    split
    · refine Or.inr ⟨rfl, within_reportFault _ _ s, ?_⟩
      simp
    · rename_i hdecl
      obtain ⟨hdefs, hpend⟩ := orElse_eq_none_iff.mp hdecl
      refine Or.inl ⟨rfl, rfl, ?_, Definitions.declaredAt?_eq_none_iff.mp hdefs, hpend⟩
      unfold Scope.param?
      cases hfun : scope.function? s.defs with
      | none => rfl
      | some f =>
        cases hparam : f.param? name with
        | none => exact hparam
        | some param => exact (howner f (by simp [hfun, hparam])).elim

private theorem within_listElement (name : String) (type : Option DataType)
    (h : ∀ id ∈ Expr.idsOf? value, nodes id) (span : Span) :
    Within (Touches nodes) (listElement scope name type value span) :=
  closed_touches.listElement scope name type (Expr.tagged_of_idsOf? h) trivial

variable {w : Footprint}

/-- A default takes a number. -/
theorem within_defaultInitializer (name : String) (type : Option DataType) (span : Span) :
    Within (Grows w) (defaultInitializer name type span) := by
  unfold defaultInitializer
  split
  · exact .fail _ _
  · split
    · exact .fail _ _
    · refine fun s => ⟨.refl _, .refl _, Nat.le_succ _, fun id hid _ => ?_⟩
      rw [Table.get?_insert, if_neg (by omega)]

private theorem within_reporting_grows (hx : Within (Grows w) x) :
    Within (Grows w) (reporting x) := by
  intro s
  unfold WithinAt
  rw [ends_reporting]
  refine Ends.mono (hx s) (fun _ _ h => h) fun d s' ⟨h, hd⟩ => ?_
  exact h.trans ⟨⟨[d], rfl, by simpa using hd⟩, .refl _, le_rfl, fun _ _ _ => rfl⟩

private theorem Within.grows (hx : Within (Touches nodes) x)
    (hnodes : ∀ id, nodes id → w.nodes id) : Within (Grows w) x :=
  fun s => (hx s).mono fun _ h => h.grows hnodes

private theorem closed_grows :
    Closed (fun tag => w.nodes tag.id) (fun _ => True) fun _ x => Within (Grows w) x where
  span _ := trivial
  pure := .pure
  bind := .bind
  look h _ s := h s s
  fail _ fault := .fail fault _
  report hd _ := (within_report hd).grows fun _ h => h
  reporting := within_reporting_grows
  mark hchange := (within_mark hchange).grows fun _ h => h
  recordType h type := (within_recordType h type).grows fun _ h => h

private theorem within_scalarInitializer (name : String) (type : Option DataType)
    (h : ∀ id ∈ Expr.idsOf? value, w.nodes id) (span : Span) :
    Within (Grows w) (scalarInitializer scope name type value span) :=
  closed_grows.scalarInitializer scope name type (Expr.tagged_of_idsOf? h) trivial
    (within_defaultInitializer name type span)

private theorem lookup_eq_of_grows {d d' : Definitions} (h : d.Grows (fun _ _ => False) d') :
    d'.lookup = d.lookup := by
  funext kind name
  cases hd : d.lookup kind name with
  | some decl => exact h.kept kind name decl hd
  | none =>
    by_contra hne
    exact h.added kind name hd hne

private theorem withinAt_define {change : Definitions → Definitions}
    (h : s.defs.Grows w.names (change s.defs)) : WithinAt (Grows w) (define change) s :=
  ⟨.refl _, h, le_rfl, fun _ _ _ => rfl⟩

private theorem withinAt_addVariable (hfresh : s.defs.Undeclared name)
    (hname : w.names .variable name) (type : DataType) (span : Span) :
    WithinAt (Grows w) (define (·.addVariable name type span)) s :=
  withinAt_define (.of_inserts (s.defs.inserts_addVariable name type span) hfresh hname)

private theorem withinAt_addList (hfresh : s.defs.Undeclared name) (hname : w.names .list name)
    (element : DataType) (span : Span) :
    WithinAt (Grows w) (define (·.addList name element span)) s :=
  withinAt_define (.of_inserts (s.defs.inserts_addList name element span) hfresh hname)

private theorem withinAt_addConstant (hfresh : s.defs.Undeclared name)
    (hname : w.names .constant name) (type : DataType) (value : Option Value) (span : Span) :
    WithinAt (Grows w) (define (·.addConstant name type value span)) s :=
  withinAt_define (.of_inserts (s.defs.inserts_addConstant name type value span) hfresh hname)

private theorem withinAt_declareVariable (hoisted : Bool) (span : Span)
    (hfresh : s.defs.Undeclared name) (hvar : w.names .variable name) (hlist : w.names .list name)
    (h : ∀ id ∈ Expr.idsOf? value, w.nodes id) :
    WithinAt (Grows w) (declareVariable scope name type value hoisted span) s := by
  unfold declareVariable
  split
  · refine WithinAt.bind (within_listElement scope name type h span s)
      (fun s' h => h.grows fun _ h => h) fun element s' htouch => ?_
    split
    · exact (withinAt_addList (hfresh.of_lookup_eq htouch.lookup) hlist _ span).bind
        (fun _ h => h) fun _ _ _ => Within.pure _ _
    · exact Within.pure _ _
  · split
    · split
      · exact (withinAt_addVariable hfresh hvar _ span).bind (fun _ h => h) fun _ _ _ =>
          Within.pure _ _
      · exact Within.pure _ _
    · have hvalue :=
        within_scalarInitializer (w := ⟨fun _ _ => False, w.nodes⟩) scope name type h span
      refine (within_reporting_grows hvalue s).bind (fun s' h => h.widen nofun)
        fun found s' hgrows => ?_
      have hfresh' := hfresh.of_lookup_eq (lookup_eq_of_grows hgrows.defs)
      split
      · exact (withinAt_addVariable hfresh' hvar _ span).bind (fun _ h => h) fun _ _ _ =>
          Within.pure _ _
      · exact Within.pure _ _

private theorem withinAt_declareConstant {value : Expr} (span : Span)
    (hfresh : s.defs.Undeclared name) (hname : w.names .constant name)
    (h : ∀ id ∈ value.ids, w.nodes id) :
    WithinAt (Grows w) (declareConstant scope name type value span) s := by
  have hvalue := within_reporting (within_exprType { scope with declaring := some name } value h)
  refine (hvalue s).bind (fun s' h => h.grows fun _ h => h) fun found s' htouch => ?_
  have hfresh' := hfresh.of_lookup_eq htouch.lookup
  split
  · split
    · exact (within_reportFault _ _ s').mono fun s'' h => h.grows fun _ h => h
    · dsimp only
      split
      · refine WithinAt.bind (within_reportFault _ _ s')
          (fun s'' h => h.grows fun _ h => h) fun _ s'' htouch' => ?_
        exact withinAt_addConstant (hfresh'.of_lookup_eq htouch'.lookup) hname _ _ span
      · exact withinAt_addConstant hfresh' hname _ _ span
  · exact Within.pure _ _

private theorem withinAt_checkUnique {scope : Scope} {span : Span} {f : Bool → Analyzer α}
    (htrue : Free scope name s → WithinAt (Grows w) (f true) s)
    (hfalse : Within (Grows w) (f false)) :
    WithinAt (Grows w) (checkUnique scope name span >>= f) s := by
  unfold WithinAt
  rw [ends_bind]
  refine (checkUnique_ends scope name span s).mono ?_ fun _ _ h => h.elim
  rintro _ s' (⟨rfl, rfl, hfree⟩ | ⟨rfl, htouch, _⟩)
  · exact htrue hfree
  · have hgrows : Grows w s s' := htouch.grows nofun
    refine Ends.mono (hfalse s') (fun _ _ h => hgrows.trans h) fun _ _ h => ?_
    exact ⟨hgrows.trans h.1, h.2⟩

private theorem within_warn (fault : AnalysisFault) (span : Span) :
    Within (Grows w) (warn fault span) :=
  fun _ => ⟨.refl _, .refl _, le_rfl, fun _ _ _ => rfl⟩

mutual

/-- Analyzing a statement declares variables, lists and constants under new names, and touches the
types of its nodes. -/
theorem within_statement (hnames : ∀ kind name, kind.isValue → w.names kind name) (scope : Scope) :
    ∀ stmt : Stmt, (∀ id ∈ stmt.ids, w.nodes id) → Within (Grows w) (statement scope stmt)
  | .varDecl name type value hoisted span, h => by
    refine fun s => withinAt_checkUnique (fun hfree => ?_) (.pure _)
    refine (withinAt_declareVariable scope type hoisted span hfree.2.1 (hnames _ _ rfl)
      (hnames _ _ rfl) h).bind (fun _ h => h) fun _ _ _ => Within.pure _ _
  | .constDecl name type value span, h => by
    refine fun s => withinAt_checkUnique (fun hfree => ?_) (.pure _)
    exact (withinAt_declareConstant scope type span hfree.2.1 (hnames _ _ rfl) h).bind
      (fun _ h => h) fun _ _ _ => Within.pure _ _
  | .funcDecl _ _ _ span _, _ | .event _ _ _ _ span _, _ => by
    exact .bind (closed_grows.reportFault trivial _) fun _ => .pure _
  | .call name args span, h => by
    refine Within.bind (within_reporting_grows ?_) fun _ => .pure _
    exact closed_grows.call scope name (Expr.taggedAll_of_ids h) trivial
  | .assign target op value span, h => by
    refine Within.bind (within_reporting_grows ?_) fun _ => .pure _
    exact closed_grows.assignment scope target op (Expr.tagged_of_ids h) trivial
  | .branch condition thenBody elseBody span, h => by
    have hcond : ∀ id ∈ condition.ids, w.nodes id := fun id hid => h id (by simp [Stmt.ids, hid])
    refine .bind (closed_grows.expectType scope (Expr.tagged_of_ids hcond) _ _) fun _ => ?_
    refine (within_statements hnames scope false thenBody fun id hid => ?_).bind fun _ => ?_
    · exact h id (by simp [Stmt.ids, hid])
    refine (within_statements hnames scope false elseBody fun id hid => ?_).bind fun _ => .pure _
    exact h id (by simp [Stmt.ids, hid])
  | .loop kind body span, h => by
    have hkind : ∀ id ∈ kind.ids, w.nodes id := fun id hid => h id (by simp [Stmt.ids, hid])
    refine .bind (closed_grows.loopHeader scope (LoopKind.tagged_of_ids hkind)) fun _ => ?_
    refine (within_statements hnames scope false body fun id hid => ?_).bind fun _ => .pure _
    exact h id (by simp [Stmt.ids, hid])

/-- Statements declare values. -/
theorem within_statements (hnames : ∀ kind name, kind.isValue → w.names kind name) (scope : Scope)
    (stopped : Bool) : ∀ stmts : List Stmt, (∀ id ∈ Stmt.idsAll stmts, w.nodes id) →
      Within (Grows w) (statements scope stopped stmts)
  | [], _ => by
    exact .pure _
  | stmt :: rest, h => by
    rw [statements]
    have hstmt := within_statement hnames scope stmt fun id hid => h id (List.mem_append_left _ hid)
    have hrest (stops : Bool) := within_statements hnames scope stops rest fun id hid =>
      h id (List.mem_append_right _ hid)
    have hboth : Within (Grows w) (do
        let (first, stops) ← statement scope stmt
        return first ++ (← statements scope (stopped || stops) rest)) :=
      hstmt.bind fun _ => (hrest _).bind fun _ => .pure _
    split
    · exact (within_warn _ _).bind fun _ => hboth
    · exact hboth

end

end Analyzer

end

/-!
## Items of a program

The names of all items are announced before any of them is declared. No two items that count have
the same name, so the variables and constants of the outermost level are new when their turn comes.
-/

variable {item : Stmt} {kind : DeclarationKind} {name : String} {d : Definitions}
  {decl : Declaration} {span : Span}

open AnalysisState List

/-- The name of the variable, list or constant that an item declares. -/
def Stmt.valueName? : Stmt → Option String
  | .varDecl name _ _ _ _ | .constDecl name _ _ _ => some name
  | _ => none

/-- The name that an item declares. -/
def Stmt.ownName? : Stmt → Option String
  | .varDecl name _ _ _ _ | .constDecl name _ _ _ | .funcDecl name _ _ _ _ => some name
  | .event kind name _ _ _ _ => if kind = .custom then some name else none
  | _ => none

/-- The function or event that an item declares. -/
def Stmt.introduced? : Stmt → Option (DeclarationKind × String)
  | .funcDecl name _ _ _ _ => some (.function, name)
  | .event .custom name _ _ _ _ => some (.event, name)
  | _ => none

/-- Functions are no values. -/
theorem Stmt.isValue_of_introduced? (h : item.introduced? = some (kind, name)) :
    kind.isValue = false := by
  unfold introduced? at h
  split at h <;> cases h <;> rfl

/-- The item whose body is to be analyzed, or what has become of it. -/
def Staged.stmt : Staged → Stmt
  | .settled stmt | .pending stmt => stmt

/-- The variables, lists and constants among items, where those that do not count are left out. -/
def countedNames (items : List (Stmt × Bool)) : List String :=
  items.filterMap fun (stmt, counts) => if counts then stmt.valueName? else none

/-- Of items that all count. -/
theorem countedNames_map (items : List Stmt) :
    countedNames (items.map (·, true)) = items.filterMap Stmt.valueName? := by
  simp [countedNames, filterMap_map]

/-- Whether names are announced and not yet declared, each of them once. -/
structure AnalysisState.Announces (names : List String) (s : AnalysisState) : Prop where
  nodup : names.Nodup
  undeclared : ∀ name ∈ names, s.defs.Undeclared name
  pending : ∀ name ∈ names, s.pending.get? name ≠ none

/-- Nothing is announced. -/
theorem AnalysisState.announces_nil (next : Nat) :
    Announces [] { nextId := next } := ⟨nodup_nil, by simp, by simp⟩

/-- What an item is known by after its announcement. No parameter of a function is a list. -/
def Stmt.Announced (d : Definitions) : Stmt → Prop
  | .funcDecl name params _ _ _ => (∀ p ∈ params, p.type.isList = false) ∧
      ∃ f first, d.lookup .function name = some (.function f) ∧
        f.params = Definitions.numberParams first (params.map fun p => (p.name, p.type))
  | .event .custom name _ _ _ _ => d.lookup .event name ≠ none
  | _ => True

/-- What is announced stays so. -/
theorem Stmt.Announced.kept {d' : Definitions} (h : d.Keeps d') :
    ∀ {item : Stmt}, item.Announced d → item.Announced d'
  | .funcDecl .., ⟨hlists, f, first, hf, hparams⟩ => ⟨hlists, f, first, h _ _ _ hf, hparams⟩
  | .event .custom .., hevent => h.lookup_ne_none hevent
  | .event .builtin .., _ | .event .startup .., _ | .varDecl .., _ | .constDecl .., _
  | .call .., _ | .assign .., _ | .branch .., _ | .loop .., _ => trivial

/-- The warning that a declaration is never used. -/
def unusedWarning (p : DeclarationKind × String × Span) : Diagnostic :=
  { Diagnostic.analysis (.unused p.1 p.2.1) p.2.2 with severity := .warning }

/-- The warnings of declarations that are never used. -/
def AnalysisOptions.unusedWarnings (options : AnalysisOptions) (d : Definitions) :
    List Diagnostic :=
  if options.warnUnused then d.unused.map unusedWarning else []

namespace Analyzer

variable {w : Footprint} {s : AnalysisState} {names : List String}
  {items : List (Stmt × Bool)} (scope : Scope)

private theorem checkParameters_ends (seen : List String) (params : List Parameter)
    (s : AnalysisState) :
    Ends (checkParameters seen params) s
      (fun _ s' => s'.errors = [] → ∀ p ∈ params, p.type.isList = false) fun _ _ => True := by
  induction params generalizing seen s with
  | nil => exact fun _ => by simp
  | cons param rest ih =>
    have hwithin (seen : List String) :
        Within (Touches fun _ => False) (checkParameters seen rest) :=
      closed_touches.checkParameters seen fun _ _ => trivial
    unfold checkParameters
    split
    · exact ends_after_fault _ _ (hwithin seen) Touches.errors
    · rename_i hlist
      dsimp only
      split
      · exact ends_after_fault _ _ (hwithin _) Touches.errors
      · refine (ih _ s).mono (fun _ s' hrest hclean => ?_) fun _ _ h => h
        exact forall_mem_cons.mpr ⟨by simpa using hlist, hrest hclean⟩

private theorem announces_of_touches {nodes : Nat → Prop} {s' : AnalysisState}
    (h : s.Announces names) (htouch : Touches nodes s s') : s'.Announces names where
  nodup := h.nodup
  undeclared name hname kind := by
    rw [htouch.lookup]
    exact h.undeclared name hname kind
  pending name hname := by
    rw [htouch.pending]
    exact h.pending name hname

private theorem announces_of_adds (h : s.Announces names) (hname : name ∉ names)
    (hadds : Definitions.Adds kind name decl s.defs d) : { s with defs := d }.Announces names where
  nodup := h.nodup
  undeclared other hother kind' := by
    have hne : ¬ (kind' = kind ∧ name = other) := by
      rintro ⟨_, rfl⟩
      exact hname hother
    rw [hadds, if_neg hne]
    exact h.undeclared other hother kind'
  pending := h.pending

/-- What the announcement of items may change: their functions and events are declared, and no node
gets a type. -/
abbrev announcing (items : List Stmt) : Footprint :=
  ⟨fun kind name => ∃ item ∈ items, item.introduced? = some (kind, name), fun _ => False⟩

/-- What an announcement does. -/
private abbrev AnnouncedAs (s : AnalysisState) (names : List String) (item : Stmt) (counts : Bool)
    (s' : AnalysisState) : Prop :=
  Grows (announcing [item]) s s' ∧ s'.Announces (names ++ countedNames [(item, counts)]) ∧
    (s'.errors = [] → counts = true ∧ item.Announced s'.defs)

private theorem announcedAs_checked {scope : Scope} {x : Analyzer Bool} (h : s.Announces names)
    {fault : Diagnostic → AnalysisState → Prop}
    (hx : Free scope name s → Ends x s (AnnouncedAs s names item) fault) :
    Ends (do if ← checkUnique scope name span then x else return false) s
      (AnnouncedAs s names item) fault := by
  rw [ends_bind]
  refine (checkUnique_ends scope name span s).mono ?_ fun _ _ h => h.elim
  rintro _ s' (⟨rfl, rfl, hfree⟩ | ⟨rfl, htouch, herrs⟩)
  · exact hx hfree
  · refine ⟨htouch.grows nofun, ?_, fun hclean => absurd hclean herrs⟩
    simpa [countedNames] using announces_of_touches h htouch

private theorem announcedAs_pending {scope : Scope} (span : Span)
    (hitem : item.valueName? = some name) (h : s.Announces names) (hfree : Free scope name s) :
    AnnouncedAs s names item true { s with pending := s.pending.insert name span } := by
  have hname : name ∉ names := fun hmem => h.pending name hmem hfree.2.2
  refine ⟨⟨.refl _, .refl _, le_rfl, fun _ _ _ => rfl⟩, ?_, fun _ => ⟨rfl, ?_⟩⟩
  · have hcounted : countedNames [(item, true)] = [name] := by simp [countedNames, hitem]
    rw [hcounted]
    refine ⟨nodup_append.mpr ⟨h.nodup, by simp, ?_⟩, ?_, ?_⟩
    · rintro other hother _ hmem rfl
      exact hname (mem_singleton.mp hmem ▸ hother)
    · intro other hother
      rcases mem_append.mp hother with hother | hother
      · exact h.undeclared other hother
      · rw [mem_singleton.mp hother]
        exact hfree.2.1
    · intro other hother
      change (s.pending.insert name span).get? other ≠ none
      rw [Table.get?_insert]
      split
      · simp
      · rename_i hne
        rcases mem_append.mp hother with hother | hother
        · exact h.pending other hother
        · exact absurd (mem_singleton.mp hother).symm hne
  · cases item <;> trivial

private theorem announcedAs_inserts (hkind : item.introduced? = some (kind, name))
    (hitem : item.valueName? = none) (h : s.Announces names) (hname : name ∉ names)
    (hfresh : s.defs.Undeclared name) (hinserts : s.defs.Inserts kind name decl span d)
    (hheld : s.errors = [] → item.Announced d) :
    AnnouncedAs s names item true { s with defs := d } := by
  refine ⟨⟨.refl _, .of_inserts hinserts hfresh ⟨item, mem_singleton_self item, hkind⟩,
    le_rfl, fun _ _ _ => rfl⟩, ?_, fun hclean => ⟨rfl, hheld hclean⟩⟩
  simpa [countedNames, hitem] using announces_of_adds h hname hinserts.adds

private theorem announcedAs_of_other (hitem : item.valueName? = none)
    (hheld : item.Announced s.defs) (h : s.Announces names) : AnnouncedAs s names item true s :=
  ⟨.refl s, by simpa [countedNames, hitem] using h, fun _ => ⟨rfl, hheld⟩⟩

private theorem announce_ends (item : Stmt) (h : s.Announces names) :
    Ends (announce scope item) s (fun counts s' => Grows (announcing [item]) s s' ∧
      s'.Announces (names ++ countedNames [(item, counts)]) ∧
      (s'.errors = [] → counts ∧ item.Announced s'.defs)) fun d s' =>
      Grows (announcing [item]) s s' ∧ d.isError := by
  match item with
  | .varDecl .. | .constDecl .. =>
    exact announcedAs_checked h fun hfree => announcedAs_pending _ rfl h hfree
  | .funcDecl name params body span endLine =>
    refine announcedAs_checked h fun hfree => ?_
    have hname : name ∉ names := fun hmem => h.pending name hmem hfree.2.2
    rw [ends_bind]
    have hchecked : WithinAt (Touches fun _ => False) (checkParameters [] params) s :=
      closed_touches.checkParameters [] (fun _ _ => trivial) s
    refine (Ends.and hchecked (checkParameters_ends [] params s)).mono ?_
      fun _ _ h => ⟨h.1.1.grows fun _ h => h, h.1.2⟩
    rintro _ s' ⟨htouch, hlists⟩
    obtain ⟨f, hparams, hinserts⟩ := s'.defs.inserts_addFunction name
      (params.map fun p => (p.name, p.type)) span endLine
    have hfun := hinserts.adds .function name
    rw [if_pos ⟨rfl, rfl⟩] at hfun
    have hheld (hclean : s'.errors = []) : (Stmt.funcDecl name params body span endLine).Announced
          (s'.defs.addFunction name (params.map fun p => (p.name, p.type)) span endLine) :=
      ⟨hlists hclean, f, _, hfun, hparams⟩
    obtain ⟨hgrows, hann, hclean⟩ :=
      announcedAs_inserts rfl rfl (announces_of_touches h htouch) hname
      (hfree.2.1.of_lookup_eq htouch.lookup) hinserts hheld
    exact ⟨(htouch.grows fun _ h => h).trans hgrows, hann, hclean⟩
  | .event .custom name param body span endLine =>
    refine announcedAs_checked h fun hfree => ?_
    have hname : name ∉ names := fun hmem => h.pending name hmem hfree.2.2
    have hinserts := s.defs.inserts_addEvent name span endLine
    refine announcedAs_inserts rfl rfl h hname hfree.2.1 hinserts fun _ => ?_
    have hevent := hinserts.adds .event name
    rw [if_pos ⟨rfl, rfl⟩] at hevent
    simp [Stmt.Announced, hevent]
  | .event .builtin .. | .event .startup .. | .call .. | .assign .. | .branch .. | .loop .. =>
    exact announcedAs_of_other rfl trivial h

private theorem countedNames_cons (item : Stmt) (counts : Bool) (rest : List (Stmt × Bool)) :
    countedNames ((item, counts) :: rest) = countedNames [(item, counts)] ++ countedNames rest := by
  simp only [countedNames, filterMap_cons, filterMap_nil]
  split <;> rfl

/-- After all announcements, the names that count are set apart. If nothing was reported, all items
count. -/
theorem announceAll_ends (items : List Stmt) (h : s.Announces names) :
    Ends (items.mapM (announce scope)) s (fun counts s' => Grows (announcing items) s s' ∧
      s'.Announces (names ++ countedNames (items.zip counts)) ∧
      (s'.errors = [] → items.zip counts = items.map (·, true) ∧ ∀ item ∈ items,
      item.Announced s'.defs)) fun d s' => Grows (announcing items) s s' ∧ d.isError := by
  induction items generalizing s names with
  | nil =>
    refine ⟨.refl s, ?_, fun _ => ⟨rfl, by simp⟩⟩
    simpa [countedNames] using h
  | cons item rest ih =>
    have hfirst {s s' : AnalysisState} (h : Grows (announcing [item]) s s') :
        Grows (announcing (item :: rest)) s s' :=
      h.widen fun _ _ ⟨other, hother, heq⟩ =>
        ⟨other, mem_cons.mpr (.inl (mem_singleton.mp hother)), heq⟩
    have hrest {s s' : AnalysisState} (h : Grows (announcing rest) s s') :
        Grows (announcing (item :: rest)) s s' :=
      h.widen fun _ _ ⟨other, hother, heq⟩ => ⟨other, mem_cons_of_mem _ hother, heq⟩
    rw [mapM_cons, ends_bind]
    refine (announce_ends scope item h).mono ?_ fun _ _ h => ⟨hfirst h.1, h.2⟩
    rintro counts s₁ ⟨hgrows, hann, hclean⟩
    rw [ends_bind]
    refine (ih hann).mono ?_ fun _ _ h => ⟨(hfirst hgrows).trans (hrest h.1), h.2⟩
    rintro more s₂ ⟨hgrows', hann', hclean'⟩
    refine ⟨(hfirst hgrows).trans (hrest hgrows'), ?_, fun hnil => ?_⟩
    · rw [zip_cons_cons, countedNames_cons, ← append_assoc]
      exact hann'
    · obtain ⟨rfl, hitem⟩ := hclean (hgrows'.errors.of_nil hnil)
      obtain ⟨hzip, hlater⟩ := hclean' hnil
      refine ⟨by rw [zip_cons_cons, hzip, map_cons], fun other hother => ?_⟩
      rcases mem_cons.mp hother with rfl | hother
      · exact hitem.kept hgrows'.defs.kept
      · exact hlater other hother

/-- An item declares its name. -/
theorem withinAt_declareItem (item : Stmt)
    (hfresh : ∀ name, item.valueName? = some name → s.defs.Undeclared name)
    (hnames : ∀ kind name, kind.isValue → item.valueName? = some name → w.names kind name)
    (hnodes : ∀ id ∈ item.ids, w.nodes id) : WithinAt (Grows w) (declareItem scope item) s := by
  have herase (name : String) : Grows w s { s with pending := s.pending.erase name } :=
    ⟨.refl _, .refl _, le_rfl, fun _ _ _ => rfl⟩
  have hmodify (name : String) :
      WithinAt (fun s s' => s' = { s with pending := s.pending.erase name })
      (modify fun s => { s with pending := s.pending.erase name }) s := rfl
  unfold declareItem
  split
  · rename_i name type value hoisted span
    refine (hmodify name).bind (fun _ h => h ▸ herase name) fun _ s' h => ?_
    subst h
    have hfresh := hfresh name rfl
    exact WithinAt.bind
        (withinAt_declareVariable scope type hoisted span hfresh (hnames _ _ rfl rfl)
        (hnames _ _ rfl rfl) hnodes)
      (fun _ h => h) fun _ _ _ => Within.pure _ _
  · rename_i name type value span
    refine (hmodify name).bind (fun _ h => h ▸ herase name) fun _ s' h => ?_
    subst h
    have hfresh := hfresh name rfl
    exact WithinAt.bind
      (withinAt_declareConstant scope type span hfresh (hnames _ _ rfl rfl) hnodes)
      (fun _ h => h) fun _ _ _ => Within.pure _ _
  · exact Within.pure _ _

/-- The declarations of the outermost level add one name after the other. -/
theorem withinAt_declareItems (hnodup : (countedNames items).Nodup)
    (hfresh : ∀ name ∈ countedNames items, s.defs.Undeclared name)
    (hnames : ∀ kind name, kind.isValue → w.names kind name)
    (hnodes : ∀ item ∈ items, ∀ id ∈ item.1.ids, w.nodes id) :
    WithinAt (Grows w) (declareItems scope items) s := by
  induction items generalizing s with
  | nil => exact Within.pure _ _
  | cons first rest ih =>
    obtain ⟨item, counts⟩ := first
    rw [countedNames_cons] at hnodup hfresh
    have hrest (s' : AnalysisState)
        (hs' : Grows ⟨fun kind name => kind.isValue = true ∧ name ∈ countedNames [(item, counts)],
        w.nodes⟩ s s') : WithinAt (Grows w) (declareItems scope rest) s' := by
      refine ih (nodup_append.mp hnodup).2.1 (fun name hname kind => ?_)
        fun other hother => hnodes other (mem_cons_of_mem _ hother)
      by_contra hne
      have hmem := hs'.defs.added kind name (hfresh name (mem_append_right _ hname) kind) hne
      exact (nodup_append.mp hnodup).2.2 name hmem.2 name hname rfl
    have hfirst : WithinAt (Grows ⟨fun kind name => kind.isValue = true ∧
        name ∈ countedNames [(item, counts)], w.nodes⟩)
        (if counts then declareItem scope item else pure (.settled item, [])) s := by
      split
      · rename_i hcounts
        have hcounted (name : String) (hname : item.valueName? = some name) :
            name ∈ countedNames [(item, counts)] := by simp [countedNames, hcounts, hname]
        exact withinAt_declareItem scope item
          (fun name hname => hfresh name (mem_append_left _ (hcounted name hname)))
          (fun _ name hkind hname => ⟨hkind, hcounted name hname⟩) (hnodes _ mem_cons_self)
      · exact Within.pure _ _
    rw [declareItems_cons]
    refine hfirst.bind (fun s' h => h.widen fun kind name hname => hnames kind name hname.1)
      fun _ s' hs' => ?_
    exact (hrest s' hs').bind (fun _ h => h) fun _ _ _ => Within.pure _ _

/-- Analyzing the body of an item declares new names and touches the types of its nodes. -/
theorem within_itemBody (hnames : ∀ kind name, kind.isValue → w.names kind name) (scope : Scope)
    (staged : Staged) (hnodes : ∀ item, staged = .pending item → ∀ id ∈ item.ids, w.nodes id) :
    Within (Grows w) (itemBody scope staged) := by
  unfold itemBody
  split
  · exact .pure _
  · have hbody := hnodes _ rfl
    exact (within_statements hnames _ false _ hbody).bind fun _ => .pure _
  · rename_i kind name param body span endLine
    have hparam : ∀ id ∈ Expr.idsOf? param, w.nodes id := fun id hid =>
      hnodes _ rfl id (mem_append_left _ hid)
    have hbody : ∀ id ∈ Stmt.idsAll body, w.nodes id := fun id hid =>
      hnodes _ rfl id (mem_append_right _ hid)
    have hstmts : Within (Grows w) (do
        let body ← statements scope false body
        return Stmt.event kind name param body span endLine) :=
      (within_statements hnames scope false body hbody).bind fun _ => .pure _
    dsimp only
    split
    · refine Within.bind ?_ fun _ => hstmts
      exact closed_grows.checkEvent scope name (Expr.tagged_of_idsOf? hparam) trivial
    · exact hstmts
  · exact .pure _

/-- Warnings of what is unused. -/
theorem run_warnUnused (s : AnalysisState) :
    warnUnused scope s = .ok ()
    { s with warnings := s.warnings ++ scope.options.unusedWarnings s.defs } := by
  have hloop {body : DeclarationKind × String × Span → PUnit → Analyzer (ForInStep PUnit)}
      (hbody : ∀ p s, body p () s = .ok (.yield ())
      { s with warnings := s.warnings ++ [unusedWarning p] })
      (unused : List (DeclarationKind × String × Span)) (s : AnalysisState) :
      EStateM.bind (forIn unused PUnit.unit body) (fun _ => pure ()) s =
        .ok () { s with warnings := s.warnings ++ unused.map unusedWarning } := by
    induction unused generalizing s with
    | nil => simp [EStateM.bind, pure, EStateM.pure]
    | cons first rest ih =>
      rw [List.forIn_cons]
      change EStateM.bind (EStateM.bind (body first ()) _) _ s = _
      have hrest := ih { s with warnings := s.warnings ++ [unusedWarning first] }
      unfold EStateM.bind at hrest ⊢
      rw [hbody]
      simpa using hrest
  unfold warnUnused AnalysisOptions.unusedWarnings
  split
  · exact hloop (fun p s => rfl) s.defs.unused s
  · simp [pure, EStateM.pure]

/-- Warning declares nothing. -/
theorem within_warnUnused : Within (Grows w) (warnUnused scope) := by
  intro s
  rw [WithinAt, Ends, run_warnUnused]
  exact ⟨.refl s, .refl _, le_rfl, fun _ _ _ => rfl⟩

/-- The passes after the announcements. -/
def passes (scope : Scope) (items : List (Stmt × Bool)) : Analyzer (List Stmt) := do
  let result ← declareItems scope items
  let analyzed ← result.1.mapM (itemBody scope)
  warnUnused scope
  return startupHandler result.2 ++ analyzed

/-- Announcements come first. -/
theorem program_eq (items : List Stmt) :
    program scope items = items.mapM (announce scope) >>= fun counts =>
    passes scope (items.zip counts) :=
  rfl

private theorem withinAt_passes (h : s.Announces (countedNames items)) :
    WithinAt (Grows ⟨fun kind _ => kind.isValue = true, fun _ => True⟩) (passes scope items) s := by
  have hdecl : WithinAt (Grows ⟨fun kind _ => kind.isValue = true, fun _ => True⟩)
      (declareItems scope items) s :=
    withinAt_declareItems scope h.nodup h.undeclared (fun _ _ hkind => hkind) fun _ _ _ _ => trivial
  refine hdecl.bind (fun _ h => h) fun staged s₂ _ => Within.bind
    (.mapM (fun item => within_itemBody (fun _ _ hkind => hkind) scope item fun _ _ _ _ => trivial)
    staged.1) (fun analyzed => (within_warnUnused scope).bind fun _ =>
    .pure (startupHandler staged.2 ++ analyzed)) s₂

/-- What the analysis of items may change: their functions and events are declared, and variables,
lists and constants of any names. -/
abbrev analyzing (items : List Stmt) : Footprint :=
  ⟨fun kind name => kind.isValue = true ∨ ∃ item ∈ items, item.introduced? = some (kind, name),
    fun _ => True⟩

private theorem withinAt_program (items : List Stmt) (h : s.Announces []) :
    WithinAt (Grows (analyzing items)) (program scope items) s := by
  unfold WithinAt
  rw [program_eq, ends_bind]
  have hannouncing {s s' : AnalysisState} (h : Grows (announcing items) s s') :
      Grows (analyzing items) s s' :=
    ⟨h.errors, h.defs.widen fun _ _ h => .inr h, h.nextId, fun _ _ hid => absurd trivial hid⟩
  have hpasses {s s' : AnalysisState}
      (h : Grows ⟨fun kind _ => kind.isValue = true, fun _ => True⟩ s s') :
      Grows (analyzing items) s s' := h.widen fun _ _ h => .inl h
  refine (announceAll_ends scope items h).mono ?_ fun _ _ h => ⟨hannouncing h.1, h.2⟩
  rintro counts s₁ ⟨hgrows, hann, _⟩
  rw [nil_append] at hann
  exact Ends.mono (withinAt_passes scope hann) (fun _ _ h => (hannouncing hgrows).trans (hpasses h))
    fun _ _ h => ⟨(hannouncing hgrows).trans (hpasses h.1), h.2⟩

end Analyzer

open Analyzer

/-- What the analysis declares grows from nothing, and what it reports are errors. -/
theorem grows_analyze (catalog : Catalog) (options : AnalysisOptions) (program : Program) :
    Definitions.Grows (analyzing program.statements).names {}
    (analyze catalog options program).defs ∧
      ∀ d ∈ (analyze catalog options program).errors, d.isError := by
  have hwithin :=
    withinAt_program { catalog, options } program.statements (announces_nil program.nextId)
  unfold analyze
  cases hrun :
      Analyzer.program { catalog, options } program.statements { nextId := program.nextId } with
  | ok statements s =>
    have hgrows := Ends.of_ok hwithin hrun
    obtain ⟨more, herrs, hmore⟩ := hgrows.errors
    exact ⟨hgrows.defs, by simpa [herrs] using hmore⟩
  | error fault s =>
    obtain ⟨hgrows, hfault⟩ := Ends.of_error hwithin hrun
    obtain ⟨more, herrs, hmore⟩ := hgrows.errors
    refine ⟨hgrows.defs, forall_mem_append.mpr ⟨?_, forall_mem_singleton.mpr hfault⟩⟩
    simpa [herrs] using hmore

/-- The definitions that the analysis returns are well formed, whatever it reports. -/
theorem wellFormed_analyze (catalog : Catalog) (options : AnalysisOptions) (program : Program) :
    (analyze catalog options program).defs.WellFormed :=
  (grows_analyze catalog options program).1.wellFormed Definitions.wellFormed_empty

end BlockScript
