import BlockScript.Catalog.Robot
import BlockScript.Proofs.Accepted

/-!
# Acceptance of programs

The passes of the analysis one after the other. If none of them reports anything, all items of the
analyzed program are accepted, every constant is declared by a statement of it, and the names in it
were resolved to what the finished analysis supports. The warnings are about statements that control
never reaches, and after them about declarations that are never used.
-/

namespace BlockScript

variable {counts : List Bool}

open AnalysisState List Stmt

/-- The nodes of an item that are analyzed with the declarations of the outermost level. -/
def Stmt.declaredIds (item : Stmt) : List Nat := if item.valueName?.isSome then item.ids else []

/-- The nodes of an item that are analyzed with the bodies. -/
def Stmt.bodyIds (item : Stmt) : List Nat := if item.valueName?.isSome then [] else item.ids

private theorem Stmt.idsAll_perm (items : List Stmt) :
    (idsAll items).Perm (items.flatMap declaredIds ++ items.flatMap bodyIds) := by
  induction items with
  | nil => exact .refl _
  | cons item rest ih =>
    rw [idsAll, flatMap_cons, flatMap_cons]
    by_cases hvalue : item.valueName?.isSome = true
    · simp only [declaredIds, bodyIds, if_pos hvalue, nil_append, append_assoc]
      exact ih.append_left _
    · simp only [declaredIds, bodyIds, if_neg hvalue, nil_append]
      refine (ih.append_left item.ids).trans ?_
      rw [← append_assoc, ← append_assoc]
      exact perm_append_comm.append_right _

/-- The nodes of an item whose body is to be analyzed. -/
def Staged.ids : Staged → List Nat
  | .settled _ => []
  | .pending item => item.ids

/-- The statements in the body of an item that control never reaches. -/
def Staged.unreached (c : LowerContext) : Staged → List Stmt
  | .settled _ => []
  | .pending item => c.unreached item

/-- The item, if it declares a constant. -/
def Staged.constant? : Staged → Option Stmt
  | .settled stmt => if stmt.isConstant then some stmt else none
  | .pending _ => none

private theorem Staged.eq_settled_of_constant? {staged : Staged} {stmt : Stmt}
    (h : staged.constant? = some stmt) : staged = .settled stmt := by
  cases staged with
  | pending => cases h
  | settled other =>
    rw [constant?] at h
    split at h <;> cases h
    rfl

/-- The names of the constants that items declare. -/
def Staged.constantsAll (staged : List Staged) : List String :=
  Stmt.constantsAll (staged.filterMap constant?)

private theorem Staged.constantsAll_cons (first : Staged) (rest : List Staged) :
    constantsAll (first :: rest) = Stmt.constantsAll first.constant?.toList ++
    constantsAll rest := by
  unfold constantsAll
  rw [filterMap_cons]
  cases first.constant? with
  | none => rfl
  | some stmt => simp [Stmt.constantsAll]

private theorem Scope.initializerUses_unannounce (scope : Scope) (s : AnalysisState) (item : Stmt)
    {name : String} (hname : item.valueName? = some name) :
    scope.initializerUses (s.unannounce name) item = scope.initializerUses s item := by
  have hent : { scope with declaring := some name }.entity? (s.unannounce name) =
      { scope with declaring := some name }.entity? s := by
    funext other
    unfold Scope.entity?
    by_cases hother : name = other
    · simp [AnalysisState.unannounce, hother]
    · have hpend : (s.pending.erase name).contains other = s.pending.contains other := by
        simp [Table.contains, Table.get?_erase, hother]
      simp only [AnalysisState.unannounce, hpend]
  have huses (names : List (Nat × String)) :
      { scope with declaring := some name }.uses (s.unannounce name) names =
      { scope with declaring := some name }.uses s names := by
    unfold Scope.uses
    rw [hent]
  cases item with
  | varDecl _ _ value _ _ =>
    cases hname
    cases value with
    | none => rfl
    | some value => simp only [Scope.initializerUses, huses]
  | constDecl _ _ _ _ =>
    cases hname
    exact huses _
  | _ => cases hname

section Settles

variable (types : TypeTable) (first : Nat)

/-- What has become of an item by its declaration, with the initializer that is run first: a value
is settled, and all else is left as it is. -/
def Staged.Settles (item : Stmt) : Staged → List Stmt → Prop
  | .settled out, own => item.HoistsItem types first out own
  | .pending stmt, own => stmt = item ∧ own = []

/-- What has become of items by their declarations. -/
inductive Staged.SettlesAll : List Stmt → List Staged → List Stmt → Prop
  | nil : SettlesAll [] [] []
  | cons {item : Stmt} {staged : Staged} {own items assigns : List Stmt} {more : List Staged}
      (hitem : staged.Settles types first item own) (hrest : SettlesAll items more assigns) :
      SettlesAll (item :: items) (staged :: more) (own ++ assigns)

end Settles

private theorem LowerContext.unreachedAll_items {c : LowerContext} {items : List Stmt}
    (h : ∀ item ∈ items, item.isItem) : c.unreachedAll false items = items.flatMap c.unreached := by
  induction items with
  | nil => rw [unreachedAll, flatMap_nil]
  | cons item rest ih =>
    obtain ⟨hitem, hrest⟩ := forall_mem_cons.mp h
    have hstops : c.stops item = false := by cases item <;> first | rfl | cases hitem
    rw [unreachedAll, hstops, flatMap_cons, ← ih hrest]
    rfl

namespace Analyzer

variable {s s' : AnalysisState} {scope : Scope} {known : List String} {item : Stmt}
  {items assigns : List Stmt} (first : Nat)

private theorem declareItem_analyzes {staged : Staged}
    (h : Clean (declareItem scope item) s (staged, assigns) s') (hwritten : item.written)
    (hfresh : ∀ name, item.valueName? = some name → s.defs.Undeclared name)
    (hknows : scope.Knows s known) :
    (staged.ids = item.bodyIds ∧ (∀ c, staged.unreached c = c.unreached item) ∧
      ∀ stmt, staged = .pending stmt → stmt = item ∧ stmt.valueName? = none) ∧
    Analyzes scope.catalog first s s' item.declaredIds (constantsAll staged.constant?.toList)
      (scope.initializerUses s item) fun w =>
        ((∀ stmt, staged = .settled stmt → stmt.Accepted w scope.function known) ∧
          Stmt.AcceptedAll w scope.function known assigns) ∧
          staged.Settles w.types first item assigns ∧
        s'.warnings = s.warnings := by
  have hunannounce (name : String) :
      Analyzes scope.catalog first s (s.unannounce name) [] [] [] fun _ => True :=
    .of_grows ⟨.refl _, .refl _, le_rfl, fun _ _ _ => rfl⟩ fun _ => trivial
  cases hname : item.valueName? with
  | none =>
    obtain ⟨rfl, rfl, rfl⟩ := eq_of_clean_declareItem hname h
    have huses : scope.initializerUses s' item = [] := by
      cases item <;> first | rfl | cases hname
    refine ⟨⟨by simp [Staged.ids, bodyIds, hname], fun c => rfl, fun stmt hstmt => ?_⟩, ?_⟩
    · cases hstmt
      exact ⟨rfl, hname⟩
    · rw [huses, show item.declaredIds = [] by simp [declaredIds, hname]]
      exact .of_grows (.refl s') fun _ => ⟨⟨nofun, trivial⟩, ⟨rfl, rfl⟩, rfl⟩
  | some _ =>
  cases item with
  | varDecl name type value hoisted span =>
    cases hoisted with
    | true => cases hwritten
    | false =>
    obtain ⟨p, hclean, heq⟩ := clean_declareItem_varDecl_iff.mp h
    cases heq
    have hknows : scope.Knows (s.unannounce name) known := ⟨hknows.function, hknows.constants⟩
    rw [← scope.initializerUses_unannounce s (.varDecl name type value false span) rfl]
    have h := declareVariable_analyzes first hclean (hfresh name rfl) hknows
    refine ⟨⟨rfl, fun c => by rw [LowerContext.unreached]; rfl, nofun⟩, ?_⟩
    refine (((hunannounce name).and h).imp ?_).weaken (nil_subset _)
    rintro w ⟨_, hw⟩
    refine ⟨⟨fun stmt heq => Staged.settled.inj heq ▸ hw.decl, hw.assign⟩, ?_, hw.warnings⟩
    rw [Staged.Settles, HoistsItem]
    split
    · rename_i hlist
      rw [hw.list hlist]
      exact ⟨rfl, rfl⟩
    · rename_i hlist
      obtain ⟨target, init, hstarts, rfl⟩ := hw.starts (by simpa using hlist)
      exact ⟨target, init, hstarts, rfl, rfl⟩
  | constDecl name type value span =>
    obtain ⟨hclean, heq⟩ := clean_declareItem_constDecl_iff.mp h
    cases heq
    have hknows : scope.Knows (s.unannounce name) known := ⟨hknows.function, hknows.constants⟩
    rw [← scope.initializerUses_unannounce s (.constDecl name type value span) rfl]
    have h := declareConstant_analyzes first hclean (hfresh name rfl) hknows
    refine ⟨⟨rfl, fun c => by rw [LowerContext.unreached]; rfl, nofun⟩,
      ((hunannounce name).and h).imp ?_⟩
    rintro w ⟨_, hconst, hwarns⟩
    exact ⟨⟨fun stmt heq => Staged.settled.inj heq ▸ hconst, trivial⟩, ⟨rfl, rfl⟩, hwarns⟩
  | _ => cases hname

private theorem declareItems_analyzes {staged : List Staged}
    (h : Clean (declareItems scope (items.map (·, true))) s (staged, assigns) s')
    (hwritten : ∀ item ∈ items, item.written) (hnames : (items.filterMap valueName?).Nodup)
    (hfresh : ∀ name ∈ items.filterMap valueName?, s.defs.Undeclared name)
    (hknows : scope.Knows s known) : (staged.flatMap Staged.ids = items.flatMap bodyIds ∧
      (∀ c, staged.flatMap (Staged.unreached c) = items.flatMap c.unreached) ∧
      ∀ item, .pending item ∈ staged → item ∈ items ∧ item.valueName? = none) ∧
    Analyzes scope.catalog first s s' (items.flatMap declaredIds) (Staged.constantsAll staged)
      (declarationUses scope s (items.map (·, true))) fun w =>
        (Stmt.AcceptedAll w scope.function known (staged.filterMap Staged.constant?) ∧
          (∀ stmt, .settled stmt ∈ staged →
          stmt.Accepted w scope.function (known ++ Staged.constantsAll staged)) ∧
          Stmt.AcceptedAll w scope.function (known ++ Staged.constantsAll staged) assigns) ∧
        Staged.SettlesAll w.types first items staged assigns ∧ s'.warnings = s.warnings := by
  induction items generalizing s known staged assigns with
  | nil =>
    obtain ⟨heq, rfl⟩ := clean_pure_iff.mp h
    cases heq
    exact ⟨⟨rfl, fun _ => rfl, nofun⟩, .of_grows (.refl s) fun _ =>
      ⟨⟨trivial, nofun, trivial⟩, .nil, rfl⟩⟩
  | cons item rest ih =>
    obtain ⟨head, own, s₁, more, others, hfirstClean, hmore, rfl, rfl⟩ :=
      exists_of_clean_declareItems_cons h
    have hmem (name : String) (hname : item.valueName? = some name) :
        name ∈ (item :: rest).filterMap valueName? := by simp [hname]
    obtain ⟨⟨hids, hunreached, hpend⟩, h₁⟩ :=
      declareItem_analyzes first hfirstClean (hwritten item mem_cons_self)
      (fun name hname => hfresh name (hmem name hname)) hknows
    have hwithin : WithinAt (Grows ⟨fun _ name => item.valueName? = some name, fun _ => True⟩)
        (declareItem scope item) s :=
      withinAt_declareItem scope item (fun name hname => hfresh name (hmem name hname))
        (fun _ _ _ hname => hname) fun _ _ => trivial
    have hgrows := Ends.of_ok hwithin hfirstClean.1
    have hfresh₁ : ∀ name ∈ rest.filterMap valueName?, s₁.defs.Undeclared name := by
      intro name hname kind
      by_contra hne
      have hnew : s.defs.Undeclared name := hfresh name (by
        rw [filterMap_cons]
        split
        · exact hname
        · exact mem_cons_of_mem _ hname)
      have hitem := hgrows.defs.added kind name (hnew kind) hne
      rw [filterMap_cons, hitem] at hnames
      exact (nodup_cons.mp hnames).1 hname
    obtain ⟨⟨hids', hunreached', hpend'⟩, h₂⟩ := ih hmore
      (fun item hitem => hwritten item (mem_cons_of_mem _ hitem))
      (hnames.sublist ((sublist_cons_self item rest).filterMap _)) hfresh₁ (hknows.after h₁)
    have h := h₁.and h₂
    rw [← Staged.constantsAll_cons] at h
    rw [map_cons, declarationUses, if_pos rfl, if_pos rfl, follow_eq hfirstClean.1]
    refine ⟨⟨?_, fun c => ?_, ?_⟩, h.imp ?_⟩
    · rw [flatMap_cons, flatMap_cons, hids, hids']
    · rw [flatMap_cons, flatMap_cons, hunreached, hunreached']
    · intro other hother
      rcases mem_cons.mp hother with hother | hother
      · obtain ⟨rfl, hnone⟩ := hpend other hother.symm
        exact ⟨mem_cons_self, hnone⟩
      · exact (hpend' other hother).imp_left (mem_cons_of_mem _)
    · rintro w ⟨⟨⟨hacc, hassigns⟩, hsettles, hwarns⟩, ⟨hconsts, hacc', hassigns'⟩, hsettles',
        hwarns'⟩
      rw [append_assoc, ← Staged.constantsAll_cons] at hacc' hassigns'
      refine ⟨⟨?_, fun stmt hstmt => ?_, acceptedAll_append.mpr ⟨?_, ?_⟩⟩, .cons hsettles hsettles',
        hwarns'.trans hwarns⟩
      · rw [filterMap_cons]
        cases hconst : head.constant? with
        | none => simpa [hconst, constantsAll] using hconsts
        | some stmt =>
          refine ⟨hacc stmt (Staged.eq_settled_of_constant? hconst), ?_⟩
          simpa [hconst, constantsAll] using hconsts
      · rcases mem_cons.mp hstmt with hstmt | hstmt
        · exact (hacc stmt hstmt.symm).mono (subset_append_left _ _)
        · exact hacc' stmt hstmt
      · exact hassigns.mono (subset_append_left _ _)
      · exact hassigns'.mono (subset_append_left _ _)

private theorem begins_analyzes {kind : EventKind} {name : String} {param : Option Expr}
    {marks : List Mark} (h : (scope.view s).begins? kind name param = some ((), marks))
    (hcustom : kind = .custom → s.defs.lookup .event name ≠ none ∧ param = none)
    (hknows : scope.Knows s known) :
    Analyzes scope.catalog first s (s.marked marks) (Expr.idsOf? param) []
      (scope.uses s (param.toList.flatMap Expr.names)) fun w =>
      (w.typing scope.function known).CanHandle w.defs kind name param := by
  unfold View.begins? at h
  split at h
  · rename_i hkind
    cases h
    obtain ⟨hevent, rfl⟩ := hcustom hkind
    have hkeeping : Analyzes scope.catalog first s s [] [] [] fun _ => True :=
      .of_grows (.refl s) fun _ => trivial
    refine hkeeping.keeping.imp fun w ⟨_, hw⟩ => ?_
    rw [TypingContext.CanHandle, if_pos hkind]
    exact ⟨hw.kept.lookup_ne_none hevent, rfl⟩
  · rename_i hkind
    have hmarks : ∀ m ∈ marks, m.Of s.defs (· ∈ Expr.idsOf? param) :=
      (leaves_checkEvent name (fun _ h => h) .nowhere).of_mem h
    simp only [TypingContext.CanHandle, if_neg hkind]
    refine .of_marks first (K := fun c _ => c.EventTyped name param) hknows hmarks le_rfl
      (fun _ => Or.inl) (Expr.namesOf?_sublist param) ?_ ?_ fun hnodup => ?_
    · intro c c' d d' htyped href _
      refine htyped.mono href.catalog fun arg harg _ harg' => harg'.refine (href.mono ?_ ?_)
      · exact fun id hid => mem_flatMap.mpr ⟨arg, Option.mem_toList.mpr harg, hid⟩
      · exact fun p hp => mem_flatMap.mpr ⟨arg, Option.mem_toList.mpr harg, hp⟩
    · intro c d htyped p hp
      obtain ⟨arg, harg, hname⟩ := mem_flatMap.mp hp
      obtain rfl := Option.mem_toList.mp harg
      obtain ⟨_, _, _, _, harg⟩ := htyped.exists_typed
      exact harg.names p hname
    · obtain ⟨hat, hhat, h⟩ := Option.bind_eq_some_iff.mp h
      refine ⟨hat, hhat, ?_⟩
      generalize hat.params.head? = spec at h
      unfold View.handled? at h
      split at h
      · exact .none
      · rename_i arg _
        obtain ⟨_, hexpects, h⟩ := Option.bind_eq_some_iff.mp h
        split at h <;> cases h
        exact .some (typed_of_inferred? (by simpa [Expr.idsOf?] using hnodup)
          (inferred?_of_expects? hexpects))
      · cases h

private theorem itemBody_analyzes (hscope : scope.function = none) {staged : Staged} {out : Stmt}
    (h : Clean (itemBody scope staged) s out s')
    (hpend : ∀ item, staged = .pending item → item.Announced s.defs ∧
      item.valueName? = none ∧ item.isItem ∧ item.written) (hknows : scope.Knows s known) :
    [out].filter isConstant = staged.constant?.toList ∧
    Analyzes scope.catalog first s s' staged.ids (constantsAll ([out].filter isOther))
        (staged.uses scope s) fun w =>
      ((∀ stmt, staged = .settled stmt → stmt.Accepted w none known) →
        Stmt.AcceptedAll w none known ([out].filter isOther)) ∧
      (∀ item own, staged.Settles w.types first item own → item.HoistsItem w.types first out own) ∧
      s'.warnings = s.warnings ++ scope.options.unreachableWarnings
          (staged.unreached (w.context none)) := by
  cases staged with
  | settled stmt =>
    obtain ⟨rfl, rfl⟩ := clean_pure_iff.mp h
    refine ⟨?_, (Analyzes.of_grows (.refl s) fun w => ⟨fun hacc => ?_, fun _ _ h => h, ?_⟩).weaken
      (nil_subset _)⟩
    · cases hconst : stmt.isConstant <;> simp [Staged.constant?, hconst]
    · cases hother : stmt.isOther with
      | false => simp [hother, Stmt.AcceptedAll]
      | true => simpa [hother, Stmt.AcceptedAll] using hacc stmt rfl
    · simp [Staged.unreached, AnalysisOptions.unreachableWarnings]
  | pending item =>
    obtain ⟨hheld, hvalue, hitem, hwritten⟩ := hpend item rfl
    cases item with
    | funcDecl name params body span endLine =>
      obtain ⟨_, hbody, rfl⟩ := clean_itemBody_function_iff.mp h
      have hknows : { scope with function := some name }.Knows s known := by
        obtain ⟨_, f, first, hf, _⟩ := hheld
        refine ⟨fun other hother => ?_, hknows.constants⟩
        cases hother
        simp [hf]
      have h := statements_analyzes first { scope with function := some name } false body hbody
        hwritten hknows
      refine ⟨rfl, (h.keeping.imp ?_).weaken (subset_append_left _ _)⟩
      rintro w ⟨hfound, hw⟩
      refine ⟨fun _ => ⟨⟨rfl, hheld.kept hw.kept, hfound.accepted⟩, trivial⟩, ?_, ?_⟩
      · rintro _ _ ⟨rfl, rfl⟩
        exact ⟨_, hfound.hoists, rfl, rfl⟩
      · rw [hfound.warnings, Staged.unreached, LowerContext.unreached]
    | event kind name param body span endLine =>
      obtain ⟨marks, _, hbeg, hbody, rfl⟩ := clean_itemBody_event_iff.mp h
      obtain ⟨hkind, hlines⟩ := (Bool.and_eq_true _ _).mp hwritten
      have hcustom : kind = .custom → s.defs.lookup .event name ≠ none ∧ param = none := by
        rintro rfl
        exact ⟨hheld, by simpa using hkind⟩
      have h₁ := begins_analyzes first hbeg hcustom hknows
      have h₂ := statements_analyzes first scope false body hbody hlines (hknows.marked marks)
      have huses : (Staged.pending (.event kind name param body span endLine)).uses scope s =
          scope.uses s (param.toList.flatMap Expr.names) ++
          usesAll scope (s.marked marks) false body := by
        rw [Staged.uses]
        split
        · rename_i heq
          obtain ⟨_, rfl⟩ := hcustom heq
          rw [View.begins?, if_pos heq] at hbeg
          cases hbeg
          rfl
        · rename_i hne
          rw [View.begins?, if_neg hne] at hbeg
          have hrun := (leaves_checkEvent name (fun _ h => h) span).clean_iff.mpr ⟨marks, hbeg, rfl⟩
          rw [follow_eq hrun.1]
      rw [huses]
      refine ⟨rfl, ((h₁.and h₂).imp ?_).weaken (subset_append_left _ _)⟩
      rintro w ⟨hevent, hfound⟩
      have hacc := hfound.accepted
      rw [hscope] at hacc hevent
      refine ⟨fun _ => ⟨⟨hevent, hacc⟩, trivial⟩, ?_, ?_⟩
      · rintro _ _ ⟨rfl, rfl⟩
        exact ⟨_, hfound.hoists, rfl, rfl⟩
      · rw [hfound.warnings, warnings_marked, Staged.unreached, LowerContext.unreached]
    | varDecl | constDecl => cases hvalue
    | _ => cases hitem

private theorem bodies_analyzes (hscope : scope.function = none) {staged : List Staged}
    {out : List Stmt} (h : Clean (staged.mapM (itemBody scope)) s out s')
    (hpend : ∀ item, .pending item ∈ staged → item.Announced s.defs ∧
      item.valueName? = none ∧ item.isItem ∧ item.written) (hknows : scope.Knows s known) :
    out.filter isConstant = staged.filterMap Staged.constant? ∧
    Analyzes scope.catalog first s s' (staged.flatMap Staged.ids)
      (constantsAll (out.filter isOther)) (bodyUses scope s staged) fun w =>
      ((∀ stmt, .settled stmt ∈ staged → stmt.Accepted w none known) →
        Stmt.AcceptedAll w none known (out.filter isOther)) ∧
      (∀ items assigns, Staged.SettlesAll w.types first items staged assigns →
        HoistsItems w.types first items out assigns) ∧
      s'.warnings = s.warnings ++ scope.options.unreachableWarnings
        (staged.flatMap (Staged.unreached (w.context none))) := by
  induction staged generalizing s known out with
  | nil =>
    obtain ⟨rfl, rfl⟩ := clean_pure_iff.mp h
    refine ⟨rfl, .of_grows (.refl s) fun _ => ⟨fun _ => trivial, ?_, ?_⟩⟩
    · rintro _ _ ⟨⟩
      exact ⟨rfl, rfl⟩
    · simp [AnalysisOptions.unreachableWarnings]
  | cons head rest ih =>
    obtain ⟨out, s₁, more, hout, hmore, rfl⟩ := (clean_mapM_cons_iff (reports_itemBody scope)).mp h
    obtain ⟨hconst, h₁⟩ := itemBody_analyzes first hscope hout
      (fun item hitem => hpend item (hitem ▸ mem_cons_self)) hknows
    obtain ⟨hconsts, h₂⟩ :=
      ih hmore (fun item hmem => (hpend item (mem_cons_of_mem _ hmem)).imp_left
      (·.kept h₁.grows.defs.kept)) (hknows.after h₁)
    have hcons (p : Stmt → Bool) : (out :: more).filter p = [out].filter p ++ more.filter p := by
      rw [← filter_append, singleton_append]
    have h := h₁.and h₂
    rw [← constantsAll_append, ← hcons] at h
    rw [bodyUses, follow_eq hout.1]
    refine ⟨?_, h.imp ?_⟩
    · rw [hcons, hconst, hconsts, filterMap_cons]
      cases head.constant? <;> rfl
    · rintro w ⟨⟨hacc, hhoists, hwarns⟩, hacc', hhoists', hwarns'⟩
      refine ⟨fun hsettled => ?_, ?_, ?_⟩
      · rw [hcons]
        refine acceptedAll_append.mpr ⟨?_, ?_⟩
        · exact hacc fun stmt hstmt => hsettled stmt (hstmt ▸ mem_cons_self)
        · refine hacc' fun stmt hstmt => ?_
          exact (hsettled stmt (mem_cons_of_mem _ hstmt)).mono (subset_append_left _ _)
      · rintro _ _ (_ | ⟨hitem, hrest⟩)
        exact ⟨out, more, _, _, hhoists _ _ hitem, hhoists' _ _ hrest, rfl, rfl⟩
      · rw [hwarns', hwarns, flatMap_cons, AnalysisOptions.unreachableWarnings_append, append_assoc]

private theorem warnings_of_clean_announceAll
    (h : Clean (items.mapM (announce scope)) s counts s') : s'.warnings = s.warnings := by
  induction items generalizing s counts with
  | nil => rw [(clean_pure_iff.mp h).2]
  | cons item rest ih =>
    obtain ⟨_, s₁, _, hfirst, hrest, _⟩ := (clean_mapM_cons_iff (reports_announce scope)).mp h
    rw [ih hrest]
    obtain ⟨_, rfl⟩ | ⟨_, _, _, ⟨_, _, rfl⟩ | ⟨_, _, _, _, _, rfl⟩⟩ :=
      cases_of_clean_announce hfirst <;> rfl

end Analyzer

/-- Whether items are accepted: first the constants in their order, then all else. -/
structure Finished.AcceptsItems (w : Finished) (items : List Stmt) : Prop where
  constants : Stmt.AcceptedAll w none [] (items.filter isConstant)
  others : Stmt.AcceptedAll w none (constantsAll (items.filter isConstant)) (items.filter isOther)

/-- The start of a program is an event of the catalog that has no parameter. -/
def Catalog.Starts (catalog : Catalog) : Prop :=
  ∃ signature, catalog.hat? startupEvent = some signature ∧ signature.params = []

/-- The robot can start. -/
theorem Robot.starts : Robot.catalog.Starts :=
  ⟨{ params := [], opcode := "event_whenprogramstarts" }, rfl, rfl⟩

private theorem acceptsItems_startupHandler {w : Finished} {assigns analyzed : List Stmt}
    (hstart : w.catalog.Starts) (h : w.AcceptsItems analyzed)
    (hassigns : Stmt.AcceptedAll w none (constantsAll (analyzed.filter isConstant)) assigns) :
    w.AcceptsItems (Analyzer.startupHandler assigns ++ analyzed) := by
  unfold Analyzer.startupHandler
  split
  · exact h
  · refine ⟨h.constants, ⟨⟨?_, hassigns⟩, h.others.mono (subset_append_left _ _)⟩⟩
    obtain ⟨hat, hhat, hparams⟩ := hstart
    exact ⟨hat, hhat, by rw [hparams]; exact .none⟩

private theorem Definitions.WellFormed.paramsApart {d : Definitions} (h : d.WellFormed) :
    d.ParamsApart := by
  intro name f hf
  obtain ⟨g, hg, heq⟩ := Option.map_eq_some_iff.mp hf
  cases heq
  have htexts := h.nodup_texts
  rw [identities, List.map_append, List.map_flatMap] at htexts
  have hparams :=
    (List.nodup_flatMap.mp (List.nodup_append.mp htexts).2.1).1 g (Table.mem_values_of_get? hg)
  rwa [List.map_map] at hparams

/-- Whether a finished analysis accepts the items of a program: they declare all constants, and what
names were resolved to is there. -/
structure Finished.Accepts (w : Finished) (items : List Stmt) : Prop where
  accepted : w.AcceptsItems items
  constants : ∀ name, w.defs.lookup .constant name ≠ none →
    name ∈ constantsAll (items.filter isConstant) ++ constantsAll (items.filter isOther)
  supports : ∀ use, w.resolved use → w.Supports use
  unique : ∀ use use', w.resolved use → w.resolved use' → use.id = use'.id → use = use'
  distinct : w.defs.Distinct
  paramsApart : w.defs.ParamsApart

/-- The finished analysis of a program, with the resolutions that were made. -/
def finished (catalog : Catalog) (options : AnalysisOptions) (program : Program) : Finished where
  catalog := catalog
  defs := (analyze catalog options program).defs
  types := (analyze catalog options program).types
  resolved := (· ∈ resolutions catalog options program)

private theorem lookup_nothing (kind : DeclarationKind) (name : String) :
    Definitions.lookup {} kind name = none := by
  cases kind <;> rfl

/-- Whether a program is as a parser makes it. -/
structure Program.Parsed (program : Program) : Prop where
  items : ∀ item ∈ program.statements, item.isItem = true ∧ item.written = true
  numbered : Numbered 0 program.nextId (idsAll program.statements)

/-- Parsing returns what is parsed. -/
theorem parse_parsed (tokens : List Token) : (parse tokens).program.Parsed :=
  ⟨parse_written tokens, parse_numbered tokens⟩

section Finished

variable {catalog : Catalog} {options : AnalysisOptions} {program : Program}

/-- What is found of the items of a program, and of the initializers that are run first. -/
structure FoundItems (options : AnalysisOptions) (w : Finished) (program : Program)
    (outs assigns : List Stmt) (s' : AnalysisState) : Prop where
  accepted : w.AcceptsItems outs
  initializers : Stmt.AcceptedAll w none (constantsAll (outs.filter isConstant)) assigns
  hoists : HoistsItems w.types program.nextId program.statements outs assigns
  warnings : s'.warnings = options.unreachableWarnings
    ((w.context none).unreachedAll false program.statements) ++ options.unusedWarnings s'.defs

/-- The items of a clean program are accepted, and it is known what the analysis warns of. -/
theorem program_analyzes (hparsed : program.Parsed) {staged : List Staged}
    {outs assigns : List Stmt} {s₁ s₂ s₃ s' : AnalysisState}
    (hcounts : Analyzer.Clean (program.statements.mapM (Analyzer.announce { catalog, options }))
      { nextId := program.nextId } counts s₁)
    (hstaged : Analyzer.Clean (Analyzer.declareItems { catalog, options }
      (program.statements.zip counts)) s₁ (staged, assigns) s₂)
    (houts : Analyzer.Clean (staged.mapM (Analyzer.itemBody { catalog, options })) s₂ outs s₃)
    (hwarned : Analyzer.Clean (Analyzer.warnUnused { catalog, options }) s₃ () s') :
    let ids := program.statements.flatMap declaredIds ++ program.statements.flatMap bodyIds
    (∀ name, s₁.defs.lookup .constant name = none) ∧ s₁.Apart program.nextId ids ∧
      Analyzes catalog program.nextId s₁ s' ids
      (constantsAll (outs.filter isConstant) ++ constantsAll (outs.filter isOther))
      (resolutions catalog options program) fun w =>
      FoundItems options w program outs assigns s' := by
  obtain ⟨hzip, hgrows, hnames, hheld⟩ := Analyzer.announces_of_clean_announceAll hcounts
  have hconsts : ∀ name, s₁.defs.lookup .constant name = none := by
    intro name
    by_contra hne
    obtain ⟨item, _, hitem⟩ := hgrows.defs.added .constant name (lookup_nothing _ _) hne
    exact absurd (isValue_of_introduced? hitem) nofun
  have hknows : Scope.Knows { catalog, options } s₁ [] :=
    ⟨nofun, fun name hname => absurd (hconsts name) hname⟩
  have hperm := idsAll_perm program.statements
  have hnodup := hperm.nodup_iff.mp hparsed.numbered.1
  have hlt : ∀ id ∈ program.statements.flatMap declaredIds ++ program.statements.flatMap bodyIds,
      id < s₁.nextId :=
    fun id hid => Nat.lt_of_lt_of_le (hparsed.numbered.2 id (hperm.mem_iff.mpr hid)).2 hgrows.nextId
  unfold resolutions
  dsimp only
  rw [Analyzer.follow_eq hcounts.1]
  rw [hzip] at hstaged ⊢
  rw [Analyzer.follow_eq hstaged.1]
  obtain ⟨⟨hids, hunreached, hpend⟩, h₁⟩ := Analyzer.declareItems_analyzes program.nextId hstaged
    (fun item hitem => (hparsed.items item hitem).2) hnames.nodup hnames.undeclared hknows
  obtain ⟨hfilter, h₂⟩ := Analyzer.bodies_analyzes program.nextId rfl houts (fun item hitem => by
      obtain ⟨hmem, hnone⟩ := hpend item hitem
      exact ⟨(hheld item hmem).kept h₁.grows.defs.kept, hnone, hparsed.items item hmem⟩)
    (hknows.after h₁)
  have h₃ : Analyzes catalog program.nextId s₃ s' [] [] [] fun _ => True :=
    .of_grows (Ends.of_ok (Analyzer.within_warnUnused _ s₃) hwarned.1) fun _ => trivial
  have hall := (h₁.and h₂).and_nil h₃
  rw [append_nil, hids] at hall
  unfold Staged.constantsAll at hall
  rw [← hfilter, nil_append] at hall
  refine ⟨hconsts, ⟨hnodup, hlt, hgrows.nextId⟩, hall.imp ?_⟩
  rintro w ⟨⟨⟨⟨hfirst, hsettled, hassigns⟩, hsettles, hwarns⟩, hothers, hhoists, hwarns'⟩, _⟩
  refine ⟨⟨hfirst, hothers hsettled⟩, hassigns, hhoists _ _ hsettles, ?_⟩
  rw [← Analyzer.eq_of_clean_warnUnused hwarned, hwarns', hwarns,
    Analyzer.warnings_of_clean_announceAll hcounts, hunreached,
    LowerContext.unreachedAll_items fun item hitem => (hparsed.items item hitem).1]
  rfl

/-- What is known of a program in which the analysis finds no error. -/
theorem finished_of_analyze (hparsed : program.Parsed) (hstart : catalog.Starts)
    (hclean : (analyze catalog options program).errors = []) :
    (finished catalog options program).Accepts
    (analyze catalog options program).program.statements ∧
      (analyze catalog options program).warnings = options.unreachableWarnings
          (((finished catalog options program).context none).unreachedAll false
          program.statements) ++
        options.unusedWarnings (analyze catalog options program).defs := by
  obtain ⟨s', h, _, hdefs, htypes⟩ := clean_of_errors_analyze hclean
  have hwell : s'.defs.WellFormed := hdefs ▸ wellFormed_analyze catalog options program
  have hwarns : (analyze catalog options program).warnings = s'.warnings := by
    unfold analyze
    rw [h.1]
  obtain ⟨counts, s₁, staged, assigns, s₂, outs, s₃, hcounts, hstaged, houts, hwarned, heq⟩ :=
    Analyzer.exists_of_clean_program h
  obtain ⟨hconsts, hapart, hanalyzes⟩ := program_analyzes hparsed hcounts hstaged houts hwarned
  have hfinished : finished catalog options program =
      ⟨catalog, s'.defs, s'.types, (· ∈ resolutions catalog options program)⟩ := by
    rw [finished, hdefs, htypes]
  rw [hfinished, hwarns, hdefs]
  obtain ⟨hfound, hsupp⟩ := hanalyzes.admits hapart
    ⟨catalog, s'.defs, s'.types, (· ∈ resolutions catalog options program)⟩
    ⟨rfl, hwell.distinct, fun _ _ _ h => h, fun _ _ _ h => h, fun _ _ => rfl⟩ fun _ h => h
  rw [← heq]
  refine ⟨⟨acceptsItems_startupHandler hstart hfound.accepted hfound.initializers, fun name hname =>
    ?_, hsupp,
    fun use use' huse huse' => inj_on_of_nodup_map (hanalyzes.nodes hapart.nodup).1 huse huse',
      hwell.distinct,
    hwell.paramsApart⟩, hfound.warnings⟩
  rw [filter_append, filter_append, constantsAll_append, constantsAll_append]
  refine append_subset.mpr ⟨?_, ?_⟩ (hanalyzes.constants name (hconsts name) hname)
  · exact subset_append_of_subset_left _ (subset_append_right _ _)
  · exact subset_append_of_subset_right _ (subset_append_right _ _)

/-- A program in which the analysis finds no error is accepted. -/
theorem finished_accepts (hparsed : program.Parsed) (hstart : catalog.Starts)
    (hclean : (analyze catalog options program).errors = []) :
    (finished catalog options program).Accepts
    (analyze catalog options program).program.statements :=
  (finished_of_analyze hparsed hstart hclean).1

/-- Where the analysis finds no error, it warns of the statements that control never reaches and
then of the declarations that are never used. -/
theorem warnings_analyze (hparsed : program.Parsed) (hstart : catalog.Starts)
    (hclean : (analyze catalog options program).errors = []) :
    (analyze catalog options program).warnings = options.unreachableWarnings
      (((finished catalog options program).context none).unreachedAll false program.statements) ++
      options.unusedWarnings (analyze catalog options program).defs :=
  (finished_of_analyze hparsed hstart hclean).2

end Finished

end BlockScript
