import BlockScript.Lowering.Statement
import BlockScript.Proofs.StatementMarks

/-!
# Clean statements

What the analysis of each kind of statement is made of where it is clean. Calls and assignments
leave marks only. A branch or a loop is what its condition or header leaves, with its bodies after
it.
-/

namespace BlockScript

/-! ### The order of marks

Marks of use go in any order, with each other and with declarations of other names; types of
different nodes go in any order as well. So the analysis may mark early or late.
-/

namespace Definitions

/-- Whether a change of the definitions goes in any order with the use of other names than this
one. -/
def Declares (name : String) (change : Definitions → Definitions) : Prop :=
  ∀ d kind other, other ≠ name → change (useAs d kind other) = (change d).useAs kind other

variable (name : String) (type : DataType)

/-- A variable is declared. -/
theorem declares_addVariable (span : Span) : Declares name (·.addVariable name type span) := by
  intro d kind other hne
  cases kind with
  | «variable» =>
    exact congrArg (fun table => { d with scalars := table, nextId := d.nextId + 1 })
      (Table.insert_modify hne d.scalars _ _)
  | _ => rfl

/-- A list is declared. -/
theorem declares_addList (element : DataType) (span : Span) :
    Declares name (·.addList name element span) := by
  intro d kind other hne
  cases kind with
  | list =>
    exact congrArg (fun table => { d with lists := table, nextId := d.nextId + 1 })
      (Table.insert_modify hne d.lists _ _)
  | _ => rfl

/-- A constant is declared. -/
theorem declares_addConstant (value : Option Value) (span : Span) :
    Declares name (·.addConstant name type value span) := by
  intro d kind other hne
  cases kind with
  | constant =>
    exact congrArg (fun table => { d with constants := table })
      (Table.insert_modify hne d.constants _ _)
  | _ => rfl

/-- Nothing need be declared. -/
theorem declares_elim {name : String} {change : DataType → Definitions → Definitions}
    (h : ∀ type, Declares name (change type)) (type : Option DataType) :
    Declares name fun d => type.elim d (change · d) := by
  cases type with
  | none => exact fun _ _ _ _ => rfl
  | some type => exact h type

private theorem useAs_useAs (d : Definitions) (kind kind' : DeclarationKind) (name name' : String) :
    (d.useAs kind name).useAs kind' name' = (d.useAs kind' name').useAs kind name := by
  cases kind <;> cases kind' <;> first
    | rfl
    | simp only [useAs, useVariable, useList, useConstant, useFunction, useEvent,
      Table.modify_modify]

end Definitions

namespace AnalysisState

variable {s t u : AnalysisState} {marks more : List Mark} {nodes : Nat → Prop}

/-- Whether two states agree on what is declared, announced and typed. -/
structure Same (s t : AnalysisState) : Prop where
  defs : t.defs = s.defs
  pending : t.pending = s.pending
  types : ∀ id, t.types.get? id = s.types.get? id

namespace Same

/-- A state is like itself. -/
theorem refl (s : AnalysisState) : Same s s := ⟨rfl, rfl, fun _ => rfl⟩

/-- Likeness goes both ways. -/
theorem symm (h : Same s t) : Same t s := ⟨h.defs.symm, h.pending.symm, fun id => (h.types id).symm⟩

/-- Likeness goes on. -/
theorem trans (h : Same s t) (h' : Same t u) : Same s u :=
  ⟨h'.defs.trans h.defs, h'.pending.trans h.pending, fun id => (h'.types id).trans (h.types id)⟩

private theorem mark (h : Same s t) (m : Mark) : Same (s.mark m) (t.mark m) := by
  cases m with
  | use kind name => exact ⟨congrArg (·.useAs kind name) h.defs, h.pending, h.types⟩
  | record id type =>
    refine ⟨h.defs, h.pending, fun other => ?_⟩
    change (t.types.insert id type).get? other = (s.types.insert id type).get? other
    rw [Table.get?_insert, Table.get?_insert, h.types]

/-- Marks keep states alike. -/
theorem marked (h : Same s t) (marks : List Mark) : Same (s.marked marks) (t.marked marks) := by
  induction marks generalizing s t with
  | nil => exact h
  | cons m rest ih => exact ih (h.mark m)

/-- Declaring keeps states alike. -/
theorem declare (h : Same s t) (change : Definitions → Definitions) :
    Same (s.declare change) (t.declare change) :=
  ⟨congrArg change h.defs, h.pending, h.types⟩

/-- Like states look alike. -/
theorem view_eq (h : Same s t) {scope scope' : Scope} (hcat : scope'.catalog = scope.catalog)
    (hdecl : scope'.declaring = scope.declaring) (hfun : scope'.function = scope.function) :
    scope'.view t = scope.view s :=
  Scope.view_congr hcat hdecl hfun (by rw [h.defs]) (by rw [h.defs]) h.pending

end Same

/-- Marks go in any order with the declaration of a new name. -/
theorem declare_marked {name : String} {change : Definitions → Definitions}
    (hchange : Definitions.Declares name change) (hfresh : s.defs.Undeclared name)
    (hmarks : ∀ m ∈ marks, m.Of s.defs nodes) :
    (s.marked marks).declare change = (s.declare change).marked marks := by
  have hstep (s : AnalysisState) (m : Mark) (hm : ∀ kind, m ≠ .use kind name) :
      (s.mark m).declare change = (s.declare change).mark m := by
    cases m with
    | record id type => rfl
    | use kind other =>
      have hne : other ≠ name := fun h => hm kind (h ▸ rfl)
      exact congrArg (fun d => { s with defs := d }) (hchange s.defs kind other hne)
  have hother : ∀ m ∈ marks, ∀ kind, m ≠ .use kind name := by
    rintro _ hm kind rfl
    exact hmarks _ hm (hfresh kind)
  clear hmarks
  induction marks generalizing s with
  | nil => rfl
  | cons m rest ih =>
    obtain ⟨hm, hrest⟩ := List.forall_mem_cons.mp hother
    have hlook : (s.mark m).defs.lookup = s.defs.lookup := lookup_marked [m]
    have hfresh' : (s.mark m).defs.Undeclared name := fun kind => by rw [hlook, hfresh kind]
    rw [marked_cons, ih hfresh' hrest, hstep s m hm, marked_cons]

/-- Marks that give types to different nodes go in any order. -/
theorem same_marked_marked {d d' : Definitions} {nodes' : Nat → Prop}
    (hmarks : ∀ m ∈ marks, m.Of d nodes) (hmore : ∀ m ∈ more, m.Of d' nodes')
    (hapart : ∀ id, nodes id → ¬ nodes' id) :
    Same ((s.marked marks).marked more) ((s.marked more).marked marks) := by
  have hswap (s : AnalysisState) {m m' : Mark} (hm : m.Of d nodes) (hm' : m'.Of d' nodes') :
      Same ((s.mark m).mark m') ((s.mark m').mark m) := by
    cases m with
    | use kind name =>
      cases m' with
      | use kind' name' => exact ⟨Definitions.useAs_useAs _ _ _ _ _, rfl, fun _ => rfl⟩
      | record id type => exact .refl _
    | record id type =>
      cases m' with
      | use kind name => exact .refl _
      | record id' type' =>
        have hne : id ≠ id' := fun h => hapart id hm (h ▸ hm')
        refine ⟨rfl, rfl, fun other => ?_⟩
        change ((s.types.insert id' type').insert id type).get? other =
          ((s.types.insert id type).insert id' type').get? other
        simp only [Table.get?_insert]
        split <;> split <;> simp_all
  have hpast (s : AnalysisState) {m' : Mark} (hm' : m'.Of d' nodes') :
      Same ((s.marked marks).mark m') ((s.mark m').marked marks) := by
    induction marks generalizing s with
    | nil => exact .refl _
    | cons m rest ih =>
      obtain ⟨hm, hrest⟩ := List.forall_mem_cons.mp hmarks
      exact (ih hrest (s.mark m)).trans ((hswap s hm hm').marked rest)
  induction more generalizing s with
  | nil => exact .refl _
  | cons m' rest ih =>
    obtain ⟨hm', hrest⟩ := List.forall_mem_cons.mp hmore
    exact ((hpast s hm').marked rest).trans (ih hrest)

end AnalysisState

/-! ### Clean statements -/

variable {hoisted : Bool} {params : List Parameter}

open AnalysisState

/-- The warning that control never reaches a statement. -/
def Stmt.unreachableWarning (stmt : Stmt) : Diagnostic :=
  { Diagnostic.analysis .unreachable stmt.span with severity := .warning }

/-- The warnings of statements that control never reaches. -/
def AnalysisOptions.unreachableWarnings (options : AnalysisOptions) (stmts : List Stmt) :
    List Diagnostic :=
  if options.warnUnreachable then stmts.map Stmt.unreachableWarning else []

/-- A state with the warnings of statements that control never reaches. -/
def AnalysisState.warned (s : AnalysisState) (options : AnalysisOptions) (stmts : List Stmt) :
    AnalysisState :=
  { s with warnings := s.warnings ++ options.unreachableWarnings stmts }

/-- Warnings declare nothing. -/
theorem AnalysisState.same_warned (s : AnalysisState) (options : AnalysisOptions)
    (stmts : List Stmt) : s.Same (s.warned options stmts) := ⟨rfl, rfl, fun _ => rfl⟩

/-- A state in which a name is no longer announced. -/
def AnalysisState.unannounce (s : AnalysisState) (name : String) : AnalysisState :=
  { s with pending := s.pending.erase name }

/-- The marks of what a handler handles. An event of the program has none. -/
def View.begins? (v : View) (kind : EventKind) (name : String) (param : Option Expr) :
    Option (Unit × List Mark) :=
  if kind = .custom then some ((), []) else v.handles? name param

namespace Analyzer

variable {scope : Scope} {s s' : AnalysisState} {outs : List Stmt} {stops : Bool} {span : Span}
  {name : String} {type : Option DataType} {rest : List Stmt}

section Parts

variable {α β : Type} {x : Analyzer α} {b : β} {f : Bool → Analyzer β} {result : List Stmt × Bool}

/-- A result that is changed. -/
theorem clean_bind_pure_iff {g : α → β} :
    Clean (x >>= fun a => pure (g a)) s b s' ↔ ∃ a, Clean x s a s' ∧ g a = b := by
  have heq : (x >>= fun a => pure (g a)) s = EStateM.bind x (fun a => pure (g a)) s := rfl
  unfold Clean
  rw [heq, EStateM.bind]
  cases x s with
  | error d s₁ => simp
  | ok a s₁ =>
    refine ⟨?_, ?_⟩
    · rintro ⟨h, herrs⟩
      cases h
      exact ⟨a, ⟨rfl, herrs⟩, rfl⟩
    · rintro ⟨_, ⟨h, herrs⟩, rfl⟩
      cases h
      exact ⟨rfl, herrs⟩

/-- What follows the check of a name is clean if the name is free. -/
theorem clean_checkUnique_bind_iff (hf : Within Reports (f false)) :
    Clean (checkUnique scope name span >>= f) s b s' ↔ Free scope name s ∧
    Clean (f true) s b s' := by
  have heq : (checkUnique scope name span >>= f) s =
    EStateM.bind (checkUnique scope name span) f s := rfl
  unfold EStateM.bind at heq
  have hends := checkUnique_ends scope name span s
  cases hrun : checkUnique scope name span s with
  | error d s₁ => exact (hends.of_error hrun).elim
  | ok free s₁ =>
    rw [hrun] at heq
    dsimp only at heq
    rcases hends.of_ok hrun with ⟨rfl, rfl, hfree⟩ | ⟨rfl, htouch, _⟩
    · unfold Clean
      rw [heq]
      exact ⟨fun h => ⟨hfree, h⟩, fun h => h.2⟩
    · refine ⟨fun h => ?_, fun h => ?_⟩
      · obtain ⟨more, hmore, _⟩ := htouch.errors
        obtain ⟨more', hmore', _⟩ := Ends.of_ok (hf s₁) (heq.symm.trans h.1)
        have hnil : more = [] := by
          have := h.2
          rw [hmore', hmore] at this
          simpa using (List.append_eq_nil_iff.mp (by simpa using this)).1
        have hclean : Clean (checkUnique scope name span) s false s₁ :=
          ⟨hrun, by simp [hmore, hnil]⟩
        cases (clean_checkUnique_iff.mp hclean).1
      · have hclean : Clean (checkUnique scope name span) s true s :=
          clean_checkUnique_iff.mpr ⟨rfl, h.1, rfl⟩
        rw [hclean.1] at hrun
        cases hrun

private theorem Clean.free (h : Clean (checkUnique scope name span >>= f) s b s')
    (hf : Within Reports (f false)) : Free scope name s ∧ Clean (f true) s b s' :=
  (clean_checkUnique_bind_iff hf).mp h

/-- A variable in a body. -/
theorem clean_varDecl_iff {value : Option Expr} :
    Clean (statement scope (.varDecl name type value hoisted span)) s result s' ↔
      Free scope name s ∧ ∃ p, Clean (declareVariable scope name type value hoisted span) s p s' ∧
        (p.1 :: p.2.toList, false) = result := by
  rw [statement]
  refine (clean_checkUnique_bind_iff ?_).trans (and_congr_right' clean_bind_pure_iff)
  exact .pure _

/-- A constant in a body. -/
theorem clean_constDecl_iff {value : Expr} :
    Clean (statement scope (.constDecl name type value span)) s result s' ↔ Free scope name s ∧
      Clean (declareConstant scope name type value span) s () s' ∧
      ([.constDecl name type value span], false) = result := by
  rw [statement]
  refine (clean_checkUnique_bind_iff ?_).trans
    (and_congr_right' (clean_bind_pure_iff.trans Unique.exists_iff))
  exact .pure _

/-- The widest footprint. -/
abbrev anything : Footprint := ⟨fun _ _ => True, fun _ => True⟩

private theorem reports_statement (scope : Scope) (stmt : Stmt) :
    Within Reports (statement scope stmt) :=
  (within_statement (fun _ _ _ => trivial) scope stmt fun _ _ => trivial :
    Within (Grows anything) _).reports_of_grows

private theorem reports_statements (scope : Scope) (stopped : Bool) (stmts : List Stmt) :
    Within Reports (statements scope stopped stmts) :=
  (within_statements (fun _ _ _ => trivial) scope stopped stmts fun _ _ => trivial :
    Within (Grows anything) _).reports_of_grows

end Parts

/-- Statements one by one. -/
theorem statements_cons (scope : Scope) (stopped : Bool) (stmt : Stmt) (rest : List Stmt) :
    statements scope stopped (stmt :: rest) =
      (if stopped && scope.options.warnUnreachable then warn .unreachable stmt.span else pure ())
      >>= fun _ => do
          let result ← statement scope stmt
          return result.1 ++ (← statements scope (stopped || result.2) rest) := by
  rw [statements]
  dsimp only
  split <;> rfl

/-- A warning after a stop. -/
theorem run_warnIf (scope : Scope) (stopped : Bool) (stmt : Stmt) (s : AnalysisState) :
    (if stopped && scope.options.warnUnreachable then warn .unreachable stmt.span else pure ()) s =
      .ok () (s.warned scope.options (if stopped then [stmt] else [])) := by
  cases stopped <;> cases hoption : scope.options.warnUnreachable <;>
    simp [AnalysisState.warned, AnalysisOptions.unreachableWarnings, hoption] <;> rfl

/-- Analyzing statements is analyzing the first and then the others. A warning may come before. -/
theorem exists_of_clean_statements_cons {stmt : Stmt} {stopped : Bool}
    (h : Clean (statements scope stopped (stmt :: rest)) s outs s') :
    ∃ first stops s₁ more, Clean (statement scope stmt)
        (s.warned scope.options (if stopped then [stmt] else [])) (first, stops) s₁ ∧
      Clean (statements scope (stopped || stops) rest) s₁ more s' ∧ first ++ more = outs := by
  have hwarn {f : Unit → Analyzer (List Stmt)}
    (h : Clean ((if stopped && scope.options.warnUnreachable then
      warn .unreachable stmt.span else pure ()) >>= f) s outs s') :
      Clean (f ()) (s.warned scope.options (if stopped then [stmt] else [])) outs s' := by
    obtain ⟨hrun, herrs⟩ := h
    change EStateM.bind _ f s = _ at hrun
    rw [EStateM.bind, run_warnIf] at hrun
    exact ⟨hrun, herrs⟩
  rw [statements_cons] at h
  have h := hwarn h
  rw [clean_bind_iff (reports_statement scope stmt) fun p =>
    (reports_statements scope (stopped || p.2) rest).bind fun _ => .pure _] at h
  obtain ⟨⟨first, stops⟩, s₁, hfirst, h⟩ := h
  obtain ⟨more, hmore, heq⟩ := clean_bind_pure_iff.mp h
  exact ⟨first, stops, s₁, more, hfirst, hmore, heq⟩


/-- A clean call leaves the marks of its arguments and that of what is called. -/
theorem clean_call_iff {callee : String} {args : List Expr} :
    Clean (statement scope (.call callee args span)) s (outs, stops) s' ↔
      ∃ types marks more, Expr.inferredAll? (scope.view s) args = some (types, marks) ∧
        (scope.view s).calls? callee args types = some (stops, more) ∧
        [.call callee args span] = outs ∧ s.marked (marks ++ more) = s' := by
  have hcall : Leaves scope (fun _ => True)
      (reporting (exprTypes scope args >>= fun types => callStatement scope callee args types span))
      _ :=
    ((leaves_exprTypes scope args fun _ _ => trivial).bind fun types =>
      leaves_callStatement callee args types span).reporting
  rw [statement, clean_bind_pure_iff]
  refine ⟨?_, ?_⟩
  · rintro ⟨found, hclean, heq⟩
    cases heq
    obtain ⟨_, hfound, rfl⟩ := hcall.clean_iff.mp hclean
    obtain ⟨⟨stops, marks⟩, hboth, heq⟩ := Option.map_eq_some_iff.mp hfound
    cases heq
    obtain ⟨⟨types, first⟩, htypes, hrest⟩ := Option.bind_eq_some_iff.mp hboth
    obtain ⟨⟨_, more⟩, hcalls, heq⟩ := Option.map_eq_some_iff.mp hrest
    cases heq
    exact ⟨types, first, more, htypes, hcalls, rfl, rfl⟩
  · rintro ⟨types, marks, more, htypes, hcalls, rfl, rfl⟩
    refine ⟨some stops, hcall.clean_iff.mpr ⟨marks ++ more, ?_, rfl⟩, rfl⟩
    simp [htypes, hcalls]

/-- A clean assignment leaves the marks of its value and that of its target. -/
theorem clean_assign_iff {target : String} {op : AssignOp} {value : Expr} :
    Clean (statement scope (.assign target op value span)) s (outs, stops) s' ↔
      ∃ found marks more, value.inferred? (scope.view s) = some (found, marks) ∧
        (scope.view s).assigns? target op found = some more ∧
        ([.assign target op value span], false) = (outs, stops) ∧
        s.marked (marks ++ more) = s' := by
  have hassign :
      Leaves scope (fun _ => True) (reporting (assignment scope target op value span)) _ :=
    (leaves_assignment target op (fun _ _ => trivial) span).reporting
  rw [statement, clean_bind_pure_iff]
  refine ⟨?_, ?_⟩
  · rintro ⟨found, hclean, heq⟩
    obtain ⟨_, hfound, rfl⟩ := hassign.clean_iff.mp hclean
    obtain ⟨_, hboth, hsome⟩ := Option.map_eq_some_iff.mp hfound
    obtain ⟨⟨type, first⟩, htype, hrest⟩ := Option.bind_eq_some_iff.mp hboth
    obtain ⟨more, hassigns, hunit⟩ := Option.map_eq_some_iff.mp hrest
    cases hunit
    cases hsome
    exact ⟨type, first, more, htype, hassigns, heq, rfl⟩
  · rintro ⟨found, marks, more, hfound, hassigns, heq, rfl⟩
    refine ⟨some (), hassign.clean_iff.mpr ⟨marks ++ more, ?_, rfl⟩, heq⟩
    simp [hfound, hassigns]

/-- A clean branch has a condition and two clean bodies, one after the other. -/
theorem clean_branch_iff {condition : Expr} {thenBody elseBody : List Stmt} :
    Clean (statement scope (.branch condition thenBody elseBody span)) s (outs, stops) s' ↔
      ∃ marks thenOut s₁ elseOut, (scope.view s).expects? condition .boolean = some ((), marks) ∧
        Clean (statements scope false thenBody) (s.marked marks) thenOut s₁ ∧
        Clean (statements scope false elseBody) s₁ elseOut s' ∧
        ([.branch condition thenOut elseOut span], false) = (outs, stops) := by
  have hcond :
      Leaves scope (fun _ => True) (expectType scope condition .boolean .conditionMismatch) _ :=
    leaves_expectType (fun _ _ => trivial) .boolean .conditionMismatch
  have helse (thenOut : List Stmt) :
      Within Reports (statements scope false elseBody >>= fun elseBody =>
      pure ([Stmt.branch condition thenOut elseBody span], false)) :=
    (reports_statements scope false elseBody).bind fun _ => .pure _
  rw [statement, clean_bind_iff hcond.reports fun _ =>
    (reports_statements scope false thenBody).bind helse]
  simp only [clean_bind_iff (reports_statements scope false thenBody) helse, clean_bind_pure_iff,
    hcond.clean_iff]
  refine ⟨?_, ?_⟩
  · rintro ⟨_, _, ⟨marks, hmarks, rfl⟩, thenOut, s₁, hthen, elseOut, helse, heq⟩
    exact ⟨marks, thenOut, s₁, elseOut, hmarks, hthen, helse, heq⟩
  · rintro ⟨marks, thenOut, s₁, elseOut, hmarks, hthen, helse, heq⟩
    exact ⟨_, _, ⟨marks, hmarks, rfl⟩, thenOut, s₁, hthen, elseOut, helse, heq⟩

/-- A loop with its body. -/
theorem clean_loop_iff {kind : LoopKind} {body : List Stmt} :
    Clean (statement scope (.loop kind body span)) s (outs, stops) s' ↔
      ∃ marks out, (scope.view s).heads? kind = some ((), marks) ∧
        Clean (statements scope false body) (s.marked marks) out s' ∧
        ([.loop kind out span], kind.isForever) = (outs, stops) := by
  have hheader : Leaves scope (fun _ => True) (loopHeader scope kind) _ :=
    leaves_loopHeader fun _ _ => trivial
  unfold statement
  rw [clean_bind_iff hheader.reports fun _ =>
    (reports_statements scope false body).bind fun _ => .pure _]
  simp only [clean_bind_pure_iff, hheader.clean_iff]
  refine ⟨?_, ?_⟩
  · rintro ⟨_, _, ⟨marks, hmarks, rfl⟩, out, hbody, heq⟩
    exact ⟨marks, out, hmarks, hbody, heq⟩
  · rintro ⟨marks, out, hmarks, hbody, heq⟩
    exact ⟨_, _, ⟨marks, hmarks, rfl⟩, out, hbody, heq⟩

/-- No item is clean inside of a body. -/
theorem not_clean_nested {item : Stmt} (h : item.isItem) (hvalue : item.valueName? = none) :
    ¬ Clean (statement scope item) s (outs, stops) s' := by
  cases item with
  | funcDecl | event =>
    rw [statement]
    exact not_clean_reportFault_bind _ _ (.pure _)
  | varDecl | constDecl => cases hvalue
  | _ => cases h

section Items

variable {name : String} {body items assigns : List Stmt} {endLine : Nat} {out item : Stmt}
  {value : Option Expr} {result : Staged × List Stmt} {staged : List Staged}

/-- Announcing adds reports. -/
theorem reports_announce (scope : Scope) (item : Stmt) : Within Reports (announce scope item) :=
  declaring_reports.announce scope item.of_true

private theorem reports_declareItem (scope : Scope) (item : Stmt) :
    Within Reports (declareItem scope item) :=
  declaring_reports.declareItem scope (fun _ name type => reports_defaultInitializer name type _)
    item.of_true

private theorem reports_declareItems (scope : Scope) (items : List (Stmt × Bool)) :
    Within Reports (declareItems scope items) :=
  declaring_reports.declareItems scope (fun _ name type => reports_defaultInitializer name type _)
    fun p _ => p.1.of_true

/-- Bodies add reports. -/
theorem reports_itemBody (scope : Scope) (staged : Staged) :
    Within Reports (itemBody scope staged) :=
  (within_itemBody (fun _ _ _ => trivial) scope staged fun _ _ _ _ => trivial :
    Within (Grows anything) _).reports_of_grows

private theorem reports_warnUnused (scope : Scope) : Within Reports (warnUnused scope) :=
  (within_warnUnused scope : Within (Grows anything) _).reports_of_grows

/-- A step for each of a list is clean if the first is and the others are. -/
theorem clean_mapM_cons_iff {α β : Type} {f : α → Analyzer β} (hf : ∀ a, Within Reports (f a))
    {a : α} {rest : List α} {outs : List β} :
    Clean ((a :: rest).mapM f) s outs s' ↔ ∃ b s₁ more, Clean (f a) s b s₁ ∧
      Clean (rest.mapM f) s₁ more s' ∧ b :: more = outs := by
  rw [List.mapM_cons, clean_bind_iff (hf a) fun _ => (Within.mapM hf rest).bind fun _ => .pure _]
  simp only [clean_bind_pure_iff]
  exact ⟨fun ⟨b, s₁, hb, more, h, heq⟩ => ⟨b, s₁, more, hb, h, heq⟩,
    fun ⟨b, s₁, more, hb, h, heq⟩ => ⟨b, s₁, hb, more, h, heq⟩⟩

/-- A variable as an item. -/
theorem clean_declareItem_varDecl_iff :
    Clean (declareItem scope (.varDecl name type value hoisted span)) s result s' ↔
      ∃ p, Clean (declareVariable scope name type value hoisted span) (s.unannounce name) p s' ∧
        (.settled p.1, p.2.toList) = result :=
  (Iff.rfl : _ ↔ Clean (declareVariable scope name type value hoisted span >>= fun p =>
    pure (Staged.settled p.1, p.2.toList)) (s.unannounce name) result s').trans clean_bind_pure_iff

/-- A constant as an item. -/
theorem clean_declareItem_constDecl_iff {value : Expr} :
    Clean (declareItem scope (.constDecl name type value span)) s result s' ↔
      Clean (declareConstant scope name type value span) (s.unannounce name) () s' ∧
        (.settled (.constDecl name type value span), []) = result :=
  ((Iff.rfl : _ ↔ Clean (declareConstant scope name type value span >>= fun _ =>
    pure (Staged.settled (.constDecl name type value span), []))
      (s.unannounce name) result s').trans clean_bind_pure_iff).trans Unique.exists_iff

/-- An item that declares no value is left for later. -/
theorem eq_of_clean_declareItem {staged : Staged} (hname : item.valueName? = none)
    (h : Clean (declareItem scope item) s (staged, assigns) s') :
    staged = .pending item ∧ assigns = [] ∧ s' = s := by
  cases item with
  | varDecl | constDecl => cases hname
  | _ =>
    obtain ⟨heq, rfl⟩ := clean_pure_iff.mp h
    cases heq
    exact ⟨rfl, rfl, rfl⟩

/-- The declarations of an item and of those after it, where nothing is reported. -/
theorem exists_of_clean_declareItems_cons
    (h : Clean (declareItems scope ((item :: rest).map (·, true))) s (staged, assigns) s') :
    ∃ first own s₁ more others, Clean (declareItem scope item) s (first, own) s₁ ∧
      Clean (declareItems scope (rest.map (·, true))) s₁ (more, others) s' ∧
      staged = first :: more ∧ assigns = own ++ others := by
  rw [List.map_cons, declareItems_cons, if_pos rfl,
    clean_bind_iff (reports_declareItem scope item) fun _ =>
      (reports_declareItems scope (rest.map (·, true))).bind fun _ => .pure _] at h
  obtain ⟨⟨first, own⟩, s₁, hfirst, h⟩ := h
  obtain ⟨⟨more, others⟩, hmore, heq⟩ := clean_bind_pure_iff.mp h
  cases heq
  exact ⟨first, own, s₁, more, others, hfirst, hmore, rfl, rfl⟩

/-- The body of a function. -/
theorem clean_itemBody_function_iff :
    Clean (itemBody scope (.pending (.funcDecl name params body span endLine))) s out s' ↔
      ∃ body', Clean (statements { scope with function := some name } false body) s body' s' ∧
        .funcDecl name params body' span endLine = out :=
  clean_bind_pure_iff

/-- The body of a handler is clean if its event and its statements are. -/
theorem clean_itemBody_event_iff {kind : EventKind} {param : Option Expr} :
    Clean (itemBody scope (.pending (.event kind name param body span endLine))) s out s' ↔
      ∃ marks body', (scope.view s).begins? kind name param = some ((), marks) ∧
        Clean (statements scope false body) (s.marked marks) body' s' ∧
        .event kind name param body' span endLine = out := by
  have hevent : Leaves scope (fun _ => True) (checkEvent scope name param span) _ :=
    leaves_checkEvent name (fun _ _ => trivial) span
  have hbody : Within Reports (statements scope false body >>= fun body =>
      pure (Stmt.event kind name param body span endLine)) :=
    (reports_statements scope false body).bind fun _ => .pure _
  unfold itemBody View.begins?
  dsimp only
  by_cases hkind : kind = .custom
  · rw [if_neg (not_not_intro hkind), if_pos hkind, clean_bind_pure_iff]
    refine ⟨fun ⟨body', hclean, heq⟩ => ⟨[], body', rfl, hclean, heq⟩, ?_⟩
    rintro ⟨_, body', hmarks, hclean, heq⟩
    cases hmarks
    exact ⟨body', hclean, heq⟩
  · rw [if_pos hkind, if_neg hkind, clean_bind_iff hevent.reports fun _ => hbody]
    simp only [clean_bind_pure_iff, hevent.clean_iff]
    refine ⟨?_, ?_⟩
    · rintro ⟨_, _, ⟨marks, hmarks, rfl⟩, body', hclean, heq⟩
      exact ⟨marks, body', hmarks, hclean, heq⟩
    · rintro ⟨marks, body', hmarks, hclean, heq⟩
      exact ⟨_, _, ⟨marks, hmarks, rfl⟩, body', hclean, heq⟩

/-- Parameters change nothing. -/
theorem eq_of_clean_checkParameters {seen : List String} {a : Unit}
    (h : Clean (checkParameters seen params) s a s') :
    s = s' ∧ ∀ t, Clean (checkParameters seen params) t a t := by
  induction params generalizing seen with
  | nil =>
    unfold checkParameters at h ⊢
    exact ⟨(clean_pure_iff.mp h).2, fun t => clean_pure_iff.mpr ⟨rfl, rfl⟩⟩
  | cons param rest ih =>
    unfold checkParameters at h ⊢
    split at h
    · exact absurd h
        (not_clean_reportFault_bind _ _ (declaring_reports.checkParameters _ fun _ _ => trivial))
    · rename_i hlist
      dsimp only at h ⊢
      split at h
      · exact absurd h
          (not_clean_reportFault_bind _ _ (declaring_reports.checkParameters _ fun _ _ => trivial))
      · rename_i hseen
        rw [if_neg hlist, if_neg hseen]
        exact ih h

/-- An announcement changes nothing, or announces or declares a free name. -/
theorem cases_of_clean_announce {counts : Bool} (h : Clean (announce scope item) s counts s') :
    (item.ownName? = none ∧ s = s') ∨ ∃ name, item.ownName? = some name ∧ Free scope name s ∧
      ((item.introduced? = none ∧ ∃ span, { s with pending := s.pending.insert name span } = s') ∨
        ∃ kind decl d, item.introduced? = some (kind, name) ∧
          s.defs.Inserts kind name decl item.span d ∧ { s with defs := d } = s') := by
  unfold announce at h
  split at h
  · obtain ⟨hfree, h⟩ := h.free (.pure _)
    exact Or.inr ⟨_, rfl, hfree, Or.inl ⟨rfl, _, (clean_pure_iff.mp h).2⟩⟩
  · obtain ⟨hfree, h⟩ := h.free (.pure _)
    exact Or.inr ⟨_, rfl, hfree, Or.inl ⟨rfl, _, (clean_pure_iff.mp h).2⟩⟩
  · obtain ⟨hfree, h⟩ := h.free (.pure _)
    rw [if_pos rfl, clean_bind_iff (declaring_reports.checkParameters _ fun _ _ => trivial) fun _ =>
      (reports_define _).bind fun _ => .pure _] at h
    obtain ⟨_, _, hparams, h⟩ := h
    obtain ⟨rfl, _⟩ := eq_of_clean_checkParameters hparams
    rw [clean_define_bind_iff] at h
    obtain ⟨f, _, hinserts⟩ := s.defs.inserts_addFunction _ _ _ _
    exact Or.inr ⟨_, rfl, hfree, Or.inr ⟨_, _, _, rfl, hinserts, (clean_pure_iff.mp h).2⟩⟩
  · obtain ⟨hfree, h⟩ := h.free (.pure _)
    rw [if_pos rfl, clean_define_bind_iff] at h
    exact Or.inr
      ⟨_, rfl, hfree, Or.inr ⟨_, _, _, rfl, s.defs.inserts_addEvent _ _ _, (clean_pure_iff.mp h).2⟩⟩
  · rename_i hvar hconst hfunc hcustom
    refine Or.inl ⟨?_, (clean_pure_iff.mp h).2⟩
    cases item with
    | varDecl => exact (hvar _ _ _ _ _ rfl).elim
    | constDecl => exact (hconst _ _ _ _ rfl).elim
    | funcDecl => exact (hfunc _ _ _ _ _ rfl).elim
    | event kind =>
      cases kind with
      | custom => exact (hcustom _ _ _ _ _ rfl).elim
      | _ => rfl
    | _ => rfl

/-- After clean announcements all items count. -/
theorem announces_of_clean_announceAll {counts : List Bool} {next : Nat}
    (h : Clean (items.mapM (announce scope)) { nextId := next } counts s) :
    items.zip counts = items.map (·, true) ∧ Grows (announcing items) { nextId := next } s ∧
      s.Announces (items.filterMap Stmt.valueName?) ∧ ∀ item ∈ items, item.Announced s.defs := by
  obtain ⟨hgrows, hnames, hall⟩ := (announceAll_ends scope items (announces_nil next)).of_ok h.1
  obtain ⟨hzip, hheld⟩ := hall h.2
  rw [List.nil_append, hzip, countedNames_map] at hnames
  exact ⟨hzip, hgrows, hnames, hheld⟩

/-- Warnings of what is unused. -/
theorem eq_of_clean_warnUnused {a : Unit} (h : Clean (warnUnused scope) s a s') :
    { s with warnings := s.warnings ++ scope.options.unusedWarnings s.defs } = s' := by
  have hrun := h.1
  rw [run_warnUnused] at hrun
  cases hrun
  rfl

/-- The passes of a clean analysis. -/
theorem exists_of_clean_program {out : List Stmt} (h : Clean (program scope items) s out s') :
    ∃ counts s₁ staged assigns s₂ analyzed s₃, Clean (items.mapM (announce scope)) s counts s₁ ∧
      Clean (declareItems scope (items.zip counts)) s₁ (staged, assigns) s₂ ∧
      Clean (staged.mapM (itemBody scope)) s₂ analyzed s₃ ∧ Clean (warnUnused scope) s₃ () s' ∧
      startupHandler assigns ++ analyzed = out := by
  have hbodies (staged : List Staged) := Within.mapM (reports_itemBody scope) staged
  have hwarn (assigns analyzed : List Stmt) : Within Reports
      (warnUnused scope >>= fun _ => pure (startupHandler assigns ++ analyzed)) :=
    (reports_warnUnused scope).bind fun _ => .pure _
  have hpasses (items : List (Stmt × Bool)) : Within Reports (passes scope items) :=
    (reports_declareItems scope items).bind fun result =>
      (hbodies result.1).bind fun analyzed => hwarn result.2 analyzed
  rw [program_eq, clean_bind_iff (Within.mapM (reports_announce scope) items) fun counts =>
    hpasses (items.zip counts)] at h
  obtain ⟨counts, s₁, hcounts, h⟩ := h
  unfold passes at h
  rw [clean_bind_iff (reports_declareItems scope (items.zip counts)) fun result =>
    (hbodies result.1).bind fun analyzed => hwarn result.2 analyzed] at h
  obtain ⟨⟨staged, assigns⟩, s₂, hstaged, h⟩ := h
  rw [clean_bind_iff (hbodies staged) fun analyzed => hwarn assigns analyzed] at h
  obtain ⟨analyzed, s₃, hana, h⟩ := h
  obtain ⟨_, hwarned, heq⟩ := clean_bind_pure_iff.mp h
  exact ⟨counts, s₁, staged, assigns, s₂, analyzed, s₃, hcounts, hstaged, hana, hwarned, heq⟩

end Items

end Analyzer

/-- Without errors it is clean. -/
theorem clean_of_errors_analyze {catalog : Catalog} {options : AnalysisOptions} {program : Program}
    (h : (analyze catalog options program).errors = []) :
    ∃ s, Analyzer.Clean (Analyzer.program { catalog, options } program.statements)
    { nextId := program.nextId } (analyze catalog options program).program.statements s ∧
      (analyze catalog options program).program.nextId = s.nextId ∧
      (analyze catalog options program).defs = s.defs ∧
      (analyze catalog options program).types = s.types := by
  unfold analyze at h ⊢
  split
  next statements s hrun =>
    rw [hrun] at h
    exact ⟨s, ⟨hrun, h⟩, rfl, rfl, rfl⟩
  next d s hrun =>
    rw [hrun] at h
    simp at h

end BlockScript
