import BlockScript.Proofs.FoldRun
import BlockScript.Proofs.Typed

/-!
# Marks of the analysis

A step of the analysis that succeeds and reports nothing is clean. Where a clean step declares
nothing, all it leaves are marks: what is used, and the types of nodes. Which marks these are
depends on what the step looks up and on nothing else that the analysis has found. So the result of
such a step and its marks are a function of a view of what is declared.
-/

namespace BlockScript

open AnalysisState

/-- A state with other definitions. -/
def AnalysisState.declare (s : AnalysisState) (change : Definitions → Definitions) :
    AnalysisState :=
  { s with defs := change s.defs }

namespace Analyzer

variable {α β : Type} {x : Analyzer α} {f : α → Analyzer β} {s s' : AnalysisState} {a : α} {b : β}
  {change : Definitions → Definitions} (fault : AnalysisFault) (span : Span)

instance : Std.Refl Reports := ⟨Reports.refl⟩

instance : Trans Reports Reports Reports := ⟨Reports.trans⟩

private theorem Within.reports {nodes : Nat → Prop} (h : Within (Touches nodes) x) :
    Within Reports x :=
  fun s => Ends.mono (h s) (fun _ _ h => h.errors) fun _ _ h => ⟨h.1.errors, h.2⟩

/-- What grows only adds reports. -/
theorem Within.reports_of_grows {w : Footprint} (h : Within (Grows w) x) : Within Reports x :=
  fun s => Ends.mono (h s) (fun _ _ h => h.errors) fun _ _ h => ⟨h.1.errors, h.2⟩

/-- Whether a step of the analysis succeeds and reports nothing. -/
def Clean (x : Analyzer α) (s : AnalysisState) (a : α) (s' : AnalysisState) : Prop :=
  x s = .ok a s' ∧ s'.errors = s.errors

/-- A step that returns without a report is clean. -/
theorem ends_clean (x : Analyzer α) (s : AnalysisState) :
    Ends x s (fun a s' => s'.errors = s.errors → Clean x s a s') fun _ _ => True := by
  unfold Ends Clean
  cases x s with
  | ok a s' => exact fun herrs => ⟨rfl, herrs⟩
  | error d s' => trivial

/-- A result is clean. -/
@[simp] theorem clean_pure_iff {a' : α} : Clean (pure a) s a' s' ↔ a = a' ∧ s = s' := by
  refine ⟨?_, ?_⟩
  · rintro ⟨h, _⟩
    cases h
    exact ⟨rfl, rfl⟩
  · rintro ⟨rfl, rfl⟩
    exact ⟨rfl, rfl⟩

/-- Reading the state is clean. -/
@[simp] theorem clean_get_bind_iff {f : AnalysisState → Analyzer β} :
    Clean (get >>= f) s b s' ↔ Clean (f s) s b s' := Iff.rfl

/-- Definitions are read. -/
@[simp] theorem clean_defs_bind_iff {f : Definitions → Analyzer β} :
    Clean (defs >>= f) s b s' ↔ Clean (f s.defs) s b s' := Iff.rfl

/-- Declaring is clean. -/
@[simp] theorem clean_define_iff {a : Unit} :
    Clean (define change) s a s' ↔ s.declare change = s' := by
  refine ⟨?_, ?_⟩
  · rintro ⟨h, _⟩
    cases h
    rfl
  · rintro rfl
    exact ⟨rfl, rfl⟩

/-- Declaring first is clean. -/
@[simp] theorem clean_define_bind_iff {f : Unit → Analyzer β} :
    Clean (define change >>= f) s b s' ↔ Clean (f ()) (s.declare change) b s' := Iff.rfl

@[simp] private theorem clean_recordType_iff {id : Nat} {type : DataType} {a : Unit} :
    Clean (recordType id type) s a s' ↔ { s with types := s.types.insert id type } = s' := by
  refine ⟨?_, ?_⟩
  · rintro ⟨h, _⟩
    cases h
    rfl
  · rintro rfl
    exact ⟨rfl, rfl⟩

/-- A failure is not clean. -/
@[simp] theorem not_clean_fail : ¬ Clean (fail fault span : Analyzer α) s a s' := nofun

/-- Nor is what follows one. -/
@[simp] theorem not_clean_fail_bind : ¬ Clean (fail fault span >>= f) s b s' := nofun

@[simp] private theorem not_clean_report {d : Diagnostic} {a : Unit} :
    ¬ Clean (report d) s a s' := by
  rintro ⟨h, herrs⟩
  cases h
  simp at herrs

@[simp] private theorem not_clean_reportFault {a : Unit} :
    ¬ Clean (reportFault fault span) s a s' := not_clean_report

/-- One step after another is clean if both are. -/
theorem clean_bind_iff (hx : Within Reports x) (hf : ∀ a, Within Reports (f a)) :
    Clean (x >>= f) s b s' ↔ ∃ a s₁, Clean x s a s₁ ∧ Clean (f a) s₁ b s' := by
  have heq : (x >>= f) s = EStateM.bind x f s := rfl
  unfold Clean
  rw [heq, EStateM.bind]
  cases hxs : x s with
  | error d s₁ => simp
  | ok a s₁ =>
    refine ⟨fun ⟨hrun, herrs⟩ => ?_, ?_⟩
    · obtain ⟨hfirst, hsnd⟩ := (Ends.of_ok (hx s) hxs).split (Ends.of_ok (hf a s₁) hrun) herrs
      exact ⟨a, s₁, ⟨rfl, hfirst⟩, hrun, hsnd⟩
    · rintro ⟨_, _, ⟨h, herrs⟩, hrun, herrs'⟩
      cases h
      exact ⟨hrun, herrs'.trans herrs⟩

/-- One clean after another. -/
theorem Clean.bind {s₁ : AnalysisState} (hx : Clean x s a s₁) (hf : Clean (f a) s₁ b s') :
    Clean (x >>= f) s b s' := by
  have heq : (x >>= f) s = EStateM.bind x f s := rfl
  refine ⟨?_, hf.2.trans hx.2⟩
  rw [heq, EStateM.bind, hx.1]
  exact hf.1

/-- Nothing is clean after a fault. -/
theorem not_clean_reportFault_bind {f : Unit → Analyzer β}
    (hf : Within Reports (f ())) : ¬ Clean (reportFault fault span >>= f) s b s' := by
  have hreport : Within (Touches fun _ => True) (reportFault fault span) :=
    within_reportFault fault span
  rw [clean_bind_iff hreport.reports fun _ => hf]
  rintro ⟨_, _, h, _⟩
  exact not_clean_reportFault fault span h

/-- Reports are added to reports. -/
theorem within_reports_reporting (hx : Within Reports x) : Within Reports (reporting x) := by
  intro s
  unfold WithinAt
  rw [ends_reporting]
  refine Ends.mono (hx s) (fun _ _ h => h) fun d s' ⟨h, hd⟩ => ?_
  exact h.trans ⟨[d], rfl, by simpa using hd⟩

/-- Declaring adds no reports. -/
theorem reports_define (change : Definitions → Definitions) : Within Reports (define change) :=
  fun _ => ⟨[], by simp, by simp⟩

/-- Whatever is analyzed, errors that were reported stay. -/
theorem declaring_reports :
    Declaring (fun _ => True) (fun _ => True) fun _ x => Within Reports x where
  span _ := trivial
  pure := .pure
  bind := .bind
  look h _ s := h s s
  fail _ fault := .fail fault _
  report hd _ := (within_report hd : Within (Touches fun _ => True) _).reports
  reporting := within_reports_reporting
  mark _ := reports_define _
  recordType _ _ := fun s => .refl s
  define _ := reports_define _
  pending _ := fun s => .refl s

/-- A step whose failure is reported is clean if it succeeds. -/
theorem clean_reporting_iff (hx : Within Reports x) {result : Option α} :
    Clean (reporting x) s result s' ↔ ∃ a, result = some a ∧ Clean x s a s' := by
  unfold Clean reporting
  cases hxs : x s with
  | ok a s₁ =>
    refine ⟨?_, ?_⟩
    · rintro ⟨h, herrs⟩
      cases h
      exact ⟨a, rfl, rfl, herrs⟩
    · rintro ⟨_, rfl, h, herrs⟩
      cases h
      exact ⟨rfl, herrs⟩
  | error d s₁ =>
    refine ⟨?_, by simp⟩
    rintro ⟨h, herrs⟩
    cases h
    obtain ⟨⟨more, hmore, _⟩, _⟩ := Ends.of_error (hx s) hxs
    simp [hmore] at herrs

end Analyzer

/-- What a step of the analysis that declares nothing leaves behind. -/
inductive Mark where
  /-- A declaration is used. -/
  | use (kind : DeclarationKind) (name : String)
  /-- A node has a type. -/
  | record (id : Nat) (type : DataType)

variable (d : Definitions) (kind : DeclarationKind) (name : String)

@[simp] private theorem Definitions.lookup_useAs : (d.useAs kind name).lookup = d.lookup :=
  lookup_eq_of_bare_eq (d.bare_useAs kind name)

@[simp] private theorem Definitions.value?_useAs : (d.useAs kind name).value? = d.value? := by
  cases kind with
  | constant =>
    funext other
    change ((d.constants.modify name _).get? other).bind _ = (d.constants.get? other).bind _
    rw [Table.get?_modify]
    split
    · cases d.constants.get? other <;> rfl
    · rfl
  | _ => rfl

/-- The table in which the use of an entity is marked. -/
def Entity.kind? : Entity → Option DeclarationKind
  | .scalar _ => some .variable
  | .list _ => some .list
  | .constant _ => some .constant
  | .param _ | .reporter .. => none

/-- The marks of a name that denotes an entity. -/
def Entity.marks (entity : Entity) (name : String) : List Mark :=
  (entity.kind?.map (Mark.use · name)).toList

namespace AnalysisState

/-- A state with one more mark. -/
def mark (s : AnalysisState) : Mark → AnalysisState
  | .use kind name => s.declare (·.useAs kind name)
  | .record id type => { s with types := s.types.insert id type }

/-- A state with more marks. -/
def marked (s : AnalysisState) (marks : List Mark) : AnalysisState := marks.foldl mark s

variable {s : AnalysisState}

@[simp] private theorem marked_nil : s.marked [] = s := rfl

/-- Marks are left one by one. -/
@[simp] theorem marked_append (marks more : List Mark) :
    s.marked (marks ++ more) = (s.marked marks).marked more := List.foldl_append

/-- The first mark comes first. -/
theorem marked_cons (mark : Mark) (marks : List Mark) :
    s.marked (mark :: marks) = (s.mark mark).marked marks := rfl

/-- The marks of a use. -/
theorem marked_marks (name : String) (entity : Entity) :
    s.marked (entity.marks name) = s.declare (·.use name entity) := by
  cases entity <;> rfl

private theorem marked_eq {α : Type} {f : AnalysisState → α} (h : ∀ s m, f (mark s m) = f s)
    (marks : List Mark) : f (s.marked marks) = f s := by
  induction marks generalizing s with
  | nil => rfl
  | cons m rest ih => rw [marked_cons, ih, h]

/-- Marks leave what is looked up. -/
@[simp] theorem lookup_marked (marks : List Mark) : (s.marked marks).defs.lookup = s.defs.lookup :=
  marked_eq (f := (·.defs.lookup)) (fun s m => by cases m <;> simp [mark, declare]) marks

/-- Marks leave known values. -/
@[simp] theorem value?_marked (marks : List Mark) : (s.marked marks).defs.value? = s.defs.value? :=
  marked_eq (f := (·.defs.value?)) (fun s m => by cases m <;> simp [mark, declare]) marks

/-- Marks leave what is announced. -/
@[simp] theorem pending_marked (marks : List Mark) : (s.marked marks).pending = s.pending :=
  marked_eq (f := (·.pending)) (fun _ m => by cases m <;> rfl) marks

/-- Marks leave errors. -/
@[simp] theorem errors_marked (marks : List Mark) : (s.marked marks).errors = s.errors :=
  marked_eq (f := (·.errors)) (fun _ m => by cases m <;> rfl) marks

/-- Marks leave warnings. -/
@[simp] theorem warnings_marked (marks : List Mark) : (s.marked marks).warnings = s.warnings :=
  marked_eq (f := (·.warnings)) (fun _ m => by cases m <;> rfl) marks

/-- Marks leave the next number. -/
@[simp] theorem nextId_marked (marks : List Mark) : (s.marked marks).nextId = s.nextId :=
  marked_eq (f := (·.nextId)) (fun _ m => by cases m <;> rfl) marks

end AnalysisState

/-- What a step of the analysis looks up. Marks of use are not part of it. -/
structure View where
  /-- The catalog. -/
  catalog : Catalog
  /-- The variable whose initializer the step is in. -/
  declaring : Option String
  /-- The parameters of the function around. -/
  param? : String → Option FunctionParam
  /-- The declarations. -/
  lookup : DeclarationKind → String → Option Declaration
  /-- The known values of constants. -/
  value? : String → Option Value
  /-- Whether a name is declared later on the outermost level. -/
  isPending : String → Bool

/-- What the analysis looks up where it stands. -/
def Scope.view (scope : Scope) (s : AnalysisState) : View where
  catalog := scope.catalog
  declaring := scope.declaring
  param? := scope.param? s.defs
  lookup := s.defs.lookup
  value? := s.defs.value?
  isPending := s.pending.contains

/-- What a view depends on. -/
theorem Scope.view_congr {scope scope' : Scope} {s s' : AnalysisState}
    (hcat : scope'.catalog = scope.catalog) (hdecl : scope'.declaring = scope.declaring)
    (hfun : scope'.function = scope.function) (hlook : s'.defs.lookup = s.defs.lookup)
    (hvalue : s'.defs.value? = s.defs.value?) (hpend : s'.pending = s.pending) :
    scope'.view s' = scope.view s := by
  have hparam : scope'.param? s'.defs = scope.param? s.defs := by
    funext name
    unfold Scope.param? Scope.function?
    rw [hfun]
    exact Definitions.param?_congr (fun _ _ => by rw [hlook]) name
  unfold Scope.view
  rw [hcat, hdecl, hparam, hlook, hvalue, hpend]

/-- Marks do not change the view. -/
@[simp] theorem Scope.view_marked (scope : Scope) (s : AnalysisState) (marks : List Mark) :
    scope.view (s.marked marks) = scope.view s :=
  Scope.view_congr rfl rfl rfl (lookup_marked marks) (value?_marked marks) (pending_marked marks)

/-- What a name denotes. -/
def View.entity? (v : View) (name : String) : Option Entity :=
  match v.param? name with
  | some p => some (.param p)
  | none =>
    if v.declaring = some name then none
    else match (v.lookup .variable name <|> v.lookup .list name <|> v.lookup .constant name).bind
        Entity.ofDeclaration? with
      | some entity => some entity
      | none => if v.isPending name then none else Entity.reporter? v.catalog name

/-- Views tell what is denoted. -/
theorem Scope.entity?_view (scope : Scope) (s : AnalysisState) :
    (scope.view s).entity? = scope.entity? s := rfl

/-- Whether a mark is that of what is declared, or of one of some nodes. -/
def Mark.Of (d : Definitions) (nodes : Nat → Prop) : Mark → Prop
  | .use kind name => d.lookup kind name ≠ none
  | .record id _ => nodes id

/-- What a name denotes is used where it is declared. -/
theorem Scope.of_mem_marks {scope : Scope} {s : AnalysisState} {nodes : Nat → Prop} {name : String}
    {entity : Entity} (h : (scope.view s).entity? name = some entity) :
    ∀ m ∈ entity.marks name, m.Of s.defs nodes := by
  rw [Scope.entity?_view] at h
  unfold Scope.entity? at h
  split at h
  · cases h
    exact List.forall_mem_nil _
  · split at h
    · cases h
    · rw [Definitions.entity?_eq] at h
      split at h
      · rename_i found hfound
        cases h
        split at hfound
        · rename_i hget
          cases hfound
          simp [Entity.marks, Entity.kind?, Mark.Of, Definitions.lookup, hget]
        · rename_i hget
          cases hfound
          simp [Entity.marks, Entity.kind?, Mark.Of, Definitions.lookup, hget]
        · rename_i hget
          cases hfound
          simp [Entity.marks, Entity.kind?, Mark.Of, Definitions.lookup, hget]
        · cases hfound
      · split at h
        · cases h
        · obtain ⟨_, _, h⟩ := Option.bind_eq_some_iff.mp h
          obtain ⟨_, _, rfl⟩ := Option.map_eq_some_iff.mp h
          exact List.forall_mem_nil _

namespace Analyzer

variable {scope : Scope} {nodes : Nat → Prop} {s s' : AnalysisState} {α β : Type} {x : Analyzer α}
  {f : α → Analyzer β}

/-- Whether a step of the analysis, where it is clean, has the result and leaves the marks that a
function of the view says, and is clean wherever the function has a value. -/
structure Leaves (scope : Scope) (nodes : Nat → Prop) (x : Analyzer α)
    (found : View → Option (α × List Mark)) : Prop where
  reports : Within Reports x
  clean_iff : ∀ {s a s'}, Clean x s a s' ↔
    ∃ marks, found (scope.view s) = some (a, marks) ∧ s.marked marks = s'
  of_mem : ∀ {s a marks}, found (scope.view s) = some (a, marks) → ∀ m ∈ marks, m.Of s.defs nodes

namespace Leaves

variable {found found' : View → Option (α × List Mark)} {more : α → View → Option (β × List Mark)}

/-- A result leaves no marks. -/
theorem pure (a : α) : Leaves scope nodes (pure a) fun _ => some (a, []) where
  reports := .pure a
  clean_iff {s a' s'} := by
    rw [clean_pure_iff]
    refine ⟨?_, ?_⟩
    · rintro ⟨rfl, rfl⟩
      exact ⟨[], rfl, rfl⟩
    · rintro ⟨marks, h, rfl⟩
      cases h
      exact ⟨rfl, rfl⟩
  of_mem h := by
    cases h
    exact nofun

/-- A failure leaves none. -/
theorem fail (fault : AnalysisFault) (span : Span) :
    Leaves scope nodes (fail fault span : Analyzer α) fun _ => none where
  reports := .fail _ _
  clean_iff := by simp
  of_mem := nofun

/-- A step that looks and changes nothing. -/
theorem guard {test : View → Option α} (hreports : Within Reports x)
    (h : ∀ {s a s'}, Clean x s a s' ↔ test (scope.view s) = some a ∧ s = s') :
    Leaves scope nodes x fun v => (test v).map (·, []) where
  reports := hreports
  clean_iff {s a s'} := by
    rw [h]
    cases test (scope.view s) with
    | none => simp
    | some a' =>
      simp only [Option.some.injEq, Option.map_some, Prod.mk.injEq]
      refine ⟨?_, ?_⟩
      · rintro ⟨rfl, rfl⟩
        exact ⟨[], ⟨rfl, rfl⟩, rfl⟩
      · rintro ⟨_, ⟨rfl, rfl⟩, rfl⟩
        exact ⟨rfl, rfl⟩
  of_mem hfound := by
    obtain ⟨_, _, heq⟩ := Option.map_eq_some_iff.mp hfound
    cases heq
    exact nofun

/-- The marks of one step after another are those of both. -/
theorem bind (hx : Leaves scope nodes x found) (hf : ∀ a, Leaves scope nodes (f a) (more a)) :
    Leaves scope nodes (x >>= f) fun v => (found v).bind fun p => (more p.1 v).map fun q =>
    (q.1, p.2 ++ q.2) where
  reports := hx.reports.bind fun a => (hf a).reports
  clean_iff {s b s'} := by
    rw [clean_bind_iff hx.reports fun a => (hf a).reports]
    simp only [hx.clean_iff, (hf _).clean_iff]
    refine ⟨?_, ?_⟩
    · rintro ⟨a, _, ⟨marks, hmarks, rfl⟩, marks', hmarks', rfl⟩
      rw [Scope.view_marked] at hmarks'
      exact ⟨marks ++ marks', by simp [hmarks, hmarks'], marked_append _ _⟩
    · rintro ⟨_, h, rfl⟩
      obtain ⟨⟨a, marks⟩, hmarks, h⟩ := Option.bind_eq_some_iff.mp h
      obtain ⟨⟨b', marks'⟩, hmarks', heq⟩ := Option.map_eq_some_iff.mp h
      cases heq
      refine ⟨a, _, ⟨marks, hmarks, rfl⟩, marks', ?_, (marked_append _ _).symm⟩
      rwa [Scope.view_marked]
  of_mem h := by
    obtain ⟨⟨a, marks⟩, hmarks, h⟩ := Option.bind_eq_some_iff.mp h
    obtain ⟨⟨b', marks'⟩, hmarks', heq⟩ := Option.map_eq_some_iff.mp h
    cases heq
    exact List.forall_mem_append.mpr ⟨hx.of_mem hmarks, (hf a).of_mem hmarks'⟩

/-- What is found is the same where it is the same in the views of the scope. -/
theorem congr_view (h : Leaves scope nodes x found)
    (heq : ∀ s, found (scope.view s) = found' (scope.view s)) : Leaves scope nodes x found' where
  reports := h.reports
  clean_iff := by
    intro s a s'
    rw [← heq]
    exact h.clean_iff
  of_mem := by
    intro s a marks hfound
    rw [← heq] at hfound
    exact h.of_mem hfound

/-- Marks said differently. -/
theorem congr (h : Leaves scope nodes x found) (heq : ∀ v, found v = found' v) :
    Leaves scope nodes x found' :=
  h.congr_view fun s => heq (scope.view s)

/-- A step whose failure is reported leaves the marks of the step. -/
theorem reporting (h : Leaves scope nodes x found) :
    Leaves scope nodes (reporting x) fun v => (found v).map fun p => (some p.1, p.2) where
  reports := within_reports_reporting h.reports
  clean_iff {s r s'} := by
    rw [clean_reporting_iff h.reports]
    simp only [h.clean_iff]
    refine ⟨?_, ?_⟩
    · rintro ⟨a, rfl, marks, hmarks, rfl⟩
      exact ⟨marks, by rw [hmarks]; rfl, rfl⟩
    · rintro ⟨marks, hmarks, rfl⟩
      obtain ⟨⟨a, marks'⟩, hfound, heq⟩ := Option.map_eq_some_iff.mp hmarks
      cases heq
      exact ⟨a, rfl, marks', hfound, rfl⟩
  of_mem hfound := by
    obtain ⟨_, hp, heq⟩ := Option.map_eq_some_iff.mp hfound
    cases heq
    exact h.of_mem hp

end Leaves

end Analyzer

end BlockScript
