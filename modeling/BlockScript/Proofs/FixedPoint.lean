import BlockScript.Compilation
import BlockScript.Proofs.AcceptedProgram
import BlockScript.Proofs.Deferral

/-!
# Analysis is a fixed point

A program that has been analyzed without an error stays as it is when it is analyzed again: nothing
is hoisted a second time, no second handler for initializers is made and no number is taken. The
second run comes to the same definitions and the same types.
-/

namespace BlockScript

variable {item : Stmt} {staged : List Staged} {assigns outs items analyzed : List Stmt}
  {counts : List Bool}
  {t t' : AnalysisState} {scope : Scope} {deferred : List (Stmt × List Mark)} {nodes : Nat → Prop}

open AnalysisState List

namespace Analyzer

variable {s s' t : AnalysisState} {scope : Scope} (options : AnalysisOptions)

/-- Whether an item is settled if it declares a variable or a constant, and pending if not. -/
def Sorted : Staged → Prop
  | .settled stmt => stmt.valueName? ≠ none
  | .pending stmt => stmt.valueName? = none

private theorem announce_of_clean_declareItem {staged : Staged}
    (h : Clean (declareItem scope item) s (staged, assigns) s') :
    Sorted staged ∧ ∀ scope, announce scope staged.stmt = announce scope item := by
  cases item with
  | varDecl name type value hoisted span =>
    obtain ⟨p, hclean, heq⟩ := clean_declareItem_varDecl_iff.mp h
    cases heq
    cases hlist : ((value.bind Expr.items?).isSome || type.any DataType.isList) with
    | true =>
      obtain ⟨_, _, _, rfl, _⟩ := (clean_declareVariable_list_iff hlist).mp hclean
      exact ⟨nofun, fun _ => rfl⟩
    | false =>
      cases hoisted with
      | true =>
        obtain ⟨rfl, _⟩ := (clean_declareVariable_hoisted_iff hlist).mp hclean
        exact ⟨nofun, fun _ => rfl⟩
      | false =>
        obtain ⟨_, _, _, _, _, rfl, _⟩ := exists_of_clean_declareVariable hlist hclean
        exact ⟨nofun, fun _ => rfl⟩
  | constDecl name type value span =>
    obtain ⟨_, heq⟩ := clean_declareItem_constDecl_iff.mp h
    cases heq
    exact ⟨nofun, fun _ => rfl⟩
  | _ =>
    obtain ⟨heq, _⟩ := clean_pure_iff.mp h
    cases heq
    exact ⟨rfl, fun _ => rfl⟩

private theorem itemBody_again {staged : Staged} {out : Stmt} (hdecl : scope.declaring = none)
    (hsorted : Sorted staged) (h : Clean (itemBody scope staged) s out s') (hsame : s.Same t) :
    Becomes staged out ∧ (∀ scope, announce scope out = announce scope staged.stmt) ∧
      Again s' (itemBody { scope with options } (restaged out)) t out := by
  cases staged with
  | settled stmt =>
    obtain ⟨rfl, rfl⟩ := clean_pure_iff.mp h
    refine ⟨rfl, fun _ => rfl, ?_⟩
    cases stmt <;> first
      | exact .pure hsame
      | exact absurd rfl hsorted
  | pending stmt =>
    cases stmt with
    | funcDecl name params body span endLine =>
      obtain ⟨out, hbody, rfl⟩ := clean_itemBody_function_iff.mp h
      have hscope : Scope.declaring { scope with function := some name } = none := hdecl
      obtain ⟨t', hagain, hsame', hnext⟩ :=
        repeatsAll_statements options hscope body hbody false t hsame
      exact ⟨rfl, fun _ => rfl, t', clean_itemBody_function_iff.mpr ⟨out, hagain, rfl⟩,
        hsame', hnext⟩
    | event kind name param body span endLine =>
      obtain ⟨marks, out, hbeg, hbody, rfl⟩ := clean_itemBody_event_iff.mp h
      have hview : Scope.view { scope with options } t = scope.view s := hsame.view_eq rfl rfl rfl
      rw [← hview] at hbeg
      obtain ⟨t', hagain, hsame', hnext⟩ :=
        repeatsAll_statements options hdecl body hbody false _ (hsame.marked marks)
      exact ⟨rfl, fun _ => by cases kind <;> rfl, t',
        clean_itemBody_event_iff.mpr ⟨marks, out, hbeg, hagain, rfl⟩,
        hsame', hnext.trans (nextId_marked marks)⟩
    | varDecl => cases hsorted
    | constDecl => cases hsorted
    | _ =>
      obtain ⟨rfl, rfl⟩ := clean_pure_iff.mp h
      exact ⟨rfl, fun _ => rfl, .pure hsame⟩

private theorem itemBodies_again (hdecl : scope.declaring = none)
    (hsorted : ∀ first ∈ staged, Sorted first)
    (h : Clean (staged.mapM (itemBody scope)) s outs s') :
    List.Forall₂ (fun first out => Becomes first out ∧
        ∀ scope, announce scope out = announce scope first.stmt) staged outs ∧
      ∀ t, s.Same t → Again s' ((outs.map restaged).mapM (itemBody { scope with options })) t
          outs := by
  induction staged generalizing s outs with
  | nil =>
    obtain ⟨rfl, rfl⟩ := clean_pure_iff.mp h
    exact ⟨.nil, fun t hsame => .pure hsame⟩
  | cons first rest ih =>
    obtain ⟨hfirst, hrest⟩ := forall_mem_cons.mp hsorted
    obtain ⟨out, s₁, outs, hout, houts, rfl⟩ := (clean_mapM_cons_iff (reports_itemBody scope)).mp h
    obtain ⟨hforall, hagain⟩ := ih hrest houts
    obtain ⟨hbecomes, hannounce, _⟩ := itemBody_again options hdecl hfirst hout (.refl s)
    refine ⟨.cons ⟨hbecomes, hannounce⟩ hforall, fun t hsame => ?_⟩
    rw [map_cons, mapM_cons]
    refine Again.bind (itemBody_again options hdecl hfirst hout hsame).2.2 fun t₁ hsame₁ => ?_
    refine Again.bind (hagain t₁ hsame₁) ?_
    exact fun _ => Again.pure

private theorem forall₂_of_clean_declareItems
    (h : Clean (declareItems scope (items.map (·, true))) s (staged, assigns) s') :
    (∀ first ∈ staged, Sorted first) ∧
      List.Forall₂ (fun item first => ∀ scope, announce scope first.stmt = announce scope item)
      items staged := by
  induction items generalizing s staged assigns with
  | nil =>
    obtain ⟨heq, _⟩ := clean_pure_iff.mp h
    cases heq
    exact ⟨nofun, .nil⟩
  | cons item rest ih =>
    obtain ⟨first, firstAssigns, s₁, more, moreAssigns, hfirst, hmore, rfl, rfl⟩ :=
      exists_of_clean_declareItems_cons h
    obtain ⟨hsorted, hannounce⟩ := announce_of_clean_declareItem hfirst
    obtain ⟨hrest, hforall⟩ := ih hmore
    exact ⟨forall_mem_cons.mpr ⟨hsorted, hrest⟩, .cons hannounce hforall⟩

private theorem announce_options (scope : Scope) (options : AnalysisOptions) (item : Stmt) :
    announce { scope with options } item = announce scope item := by
  cases item with
  | event kind => cases kind <;> rfl
  | _ => rfl

private theorem unmixed_of_clean_announce {counts : Bool}
    (h : Clean (announce scope item) s counts s') (hs : s.Unmixed) : s'.Unmixed := by
  obtain ⟨_, rfl⟩ | ⟨name, _, ⟨_, hnew, hpend⟩,
      ⟨_, span, rfl⟩ | ⟨kind, decl, d, _, hinserts, rfl⟩⟩ :=
    cases_of_clean_announce h
  · exact hs
  · intro other hother
    change (s.pending.insert name span).get? other ≠ none at hother
    rw [Table.get?_insert] at hother
    split at hother
    · rename_i heq
      rw [← heq]
      exact hnew
    · exact hs other hother
  · intro other hother kind'
    have hne : ¬ (kind' = kind ∧ name = other) := by
      rintro ⟨_, rfl⟩
      exact hother hpend
    rw [hinserts.adds, if_neg hne]
    exact hs other hother kind'

private theorem unmixed_of_clean_announceAll (h : Clean (items.mapM (announce scope)) s counts s')
    (hs : s.Unmixed) : s'.Unmixed := by
  induction items generalizing s counts with
  | nil =>
    obtain ⟨_, rfl⟩ := clean_pure_iff.mp h
    exact hs
  | cons item rest ih =>
    obtain ⟨_, s₁, _, hfirst, hrest, _⟩ := (clean_mapM_cons_iff (reports_announce scope)).mp h
    exact ih hrest (unmixed_of_clean_announce hfirst hs)

private theorem clean_deferred {u : AnalysisState} (h : Defers scope nodes t t' deferred)
    (hu : t'.Later u) :
    Clean (statements scope false (deferred.map Prod.fst)) u (deferred.map Prod.fst)
      (u.marked (deferred.flatMap Prod.snd)) := by
  have hreplays := h.replays
  clear h
  induction deferred generalizing u with
  | nil =>
    rw [map_nil, statements]
    exact clean_pure_iff.mpr ⟨rfl, rfl⟩
  | cons p rest ih =>
    obtain ⟨hp, hrest⟩ := forall_mem_cons.mp hreplays
    rw [map_cons, statements, flatMap_cons, marked_append]
    exact (hp u hu).bind (clean_bind_pure_iff.mpr ⟨_, ih (hu.marked p.2) hrest, rfl⟩)

private theorem Again.of_same {α : Type} {x : Analyzer α} {a : α} (h : Again s x t a)
    (hsame : s.Same s') : Again s' x t a := by
  obtain ⟨t', hclean, hsame', hnext⟩ := h
  exact ⟨t', hclean, hsame.symm.trans hsame', hnext⟩

private theorem program_again {t₁ t₂ : AnalysisState}
    (hcounts : Clean (items.mapM (announce scope)) t counts t₁)
    (hstaged : Clean (declareItems scope (items.zip counts)) t₁ (staged, []) t₂)
    (hana : Again s (staged.mapM (itemBody scope)) t₂ analyzed) (hnext : t₂.nextId = t.nextId) :
    Again s (program scope items) t analyzed := by
  obtain ⟨t₃, hclean, hsame, hnext'⟩ := hana
  have hwarn : Clean (warnUnused scope) t₃ () _ := ⟨run_warnUnused scope t₃, rfl⟩
  rw [program_eq]
  exact ⟨_, hcounts.bind (hstaged.bind (hclean.bind (hwarn.bind (clean_pure_iff.mpr ⟨rfl, rfl⟩)))),
    ⟨hsame.defs, hsame.pending, hsame.types⟩, hnext'.trans hnext⟩

end Analyzer

open Analyzer

private theorem again_startup (h : Defers scope nodes t t' deferred)
    (hstarts : scope.catalog.Starts) {handler : Stmt}
    (hhandler : handler = .event .startup startupEvent none (deferred.map Prod.fst) .nowhere 0) :
    Clean (itemBody scope (restaged handler)) t' handler
    (t'.marked (deferred.flatMap Prod.snd)) := by
  obtain ⟨signature, hhat, hparams⟩ := hstarts
  have hevent : Leaves scope (fun _ => True) (checkEvent scope startupEvent none .nowhere) _ :=
    leaves_checkEvent startupEvent nofun .nowhere
  have hcheck : Clean (checkEvent scope startupEvent none .nowhere) t' () t' := by
    refine hevent.clean_iff.mpr ⟨[], ?_, rfl⟩
    simp [View.handles?, Scope.view, hhat, hparams, View.handled?]
  subst hhandler
  exact hcheck.bind (clean_bind_pure_iff.mpr ⟨_, clean_deferred h (.refl t'), rfl⟩)

private theorem clean_announce_handler (h : Clean (analyzed.mapM (announce scope)) t counts t') :
    Clean ((Stmt.event .startup startupEvent none assigns .nowhere 0 :: analyzed).mapM
    (announce scope)) t (true :: counts) t' := by
  rw [mapM_cons]
  exact Clean.bind (clean_pure_iff.mpr ⟨rfl, rfl⟩) (clean_bind_pure_iff.mpr ⟨_, h, rfl⟩)

private theorem clean_declare_handler {items : List (Stmt × Bool)} {more : List Stmt}
    (h : Clean (declareItems scope items) t (staged, more) t') :
    Clean (declareItems scope ((Stmt.event .startup startupEvent none assigns .nowhere 0, true) ::
    items)) t
      (.pending (.event .startup startupEvent none assigns .nowhere 0) :: staged, more) t' := by
  rw [declareItems_cons]
  exact Clean.bind (clean_pure_iff.mpr ⟨rfl, rfl⟩) (clean_bind_pure_iff.mpr ⟨_, h, rfl⟩)

private theorem zip_eq_of_zip_eq (hlen : items.length = outs.length)
    (h : items.zip counts = items.map (·, true)) : outs.zip counts = outs.map (·, true) := by
  induction items generalizing outs counts with
  | nil =>
    rw [length_eq_zero_iff.mp hlen.symm]
    rfl
  | cons item rest ih =>
    obtain _ | ⟨out, outs⟩ := outs
    · cases hlen
    · obtain _ | ⟨counted, counts⟩ := counts
      · cases h
      · rw [zip_cons_cons, map_cons] at h
        obtain ⟨hfirst, hrest⟩ := List.cons.inj h
        rw [zip_cons_cons, map_cons, ih (Nat.succ.inj hlen) hrest, (Prod.mk.inj hfirst).2]

private theorem forall₂_announce (scope : Scope) (options : AnalysisOptions) (hitems : List.Forall₂
    (fun item first => ∀ scope, announce scope first.stmt = announce scope item)
      items staged) (houts : List.Forall₂ (fun first out => Becomes first out ∧
      ∀ scope, announce scope out = announce scope first.stmt) staged outs) :
    List.Forall₂ (fun item out => announce { scope with options } out = announce scope item) items
        outs := by
  induction hitems generalizing outs with
  | nil =>
    cases houts
    exact .nil
  | cons hitem _ ih =>
    obtain _ | ⟨hout, houts⟩ := houts
    exact .cons (by rw [hout.2, hitem, announce_options]) (ih houts)

/-- An analyzed program stays as it is when it is analyzed again, and comes to the same state. -/
theorem again_program (options : AnalysisOptions) (hstarts : scope.catalog.Starts)
    (hfun : scope.function = none) (hdecl : scope.declaring = none) {out : List Stmt} {next : Nat}
    {s' : AnalysisState} (hnumbered : Numbered 0 next (Stmt.idsAll items))
    (h : Clean (program scope items) { nextId := next } out s') (next' : Nat) :
    Again s' (program { scope with options } out) { nextId := next' } out := by
  obtain ⟨counts, s₁, staged, assigns, s₂, analyzed, s₃, hcounts, hstaged, hana, hwarned, rfl⟩ :=
    exists_of_clean_program h
  -- All items count, and the variables and constants among them are announced.
  obtain ⟨hzip, hgrows, hnames, _⟩ := announces_of_clean_announceAll hcounts
  rw [hzip] at hstaged
  -- The analyzed items have the heads of the items, and their bodies are analyzed the same way
  -- again.
  obtain ⟨hsorted, hitems⟩ := forall₂_of_clean_declareItems hstaged
  obtain ⟨hbodies, hagain⟩ := itemBodies_again options hdecl hsorted hana
  have hheads := forall₂_announce scope options hitems hbodies
  have hlt : ∀ id ∈ Stmt.idsAll items, id < s₁.nextId := fun id hid =>
    Nat.lt_of_lt_of_le (hnumbered.2 id hid).2 hgrows.nextId
  obtain ⟨t₁, hcounts', hsame₁, hnext₁⟩ : Again s₁ (analyzed.mapM (announce { scope with options }))
      { nextId := next' } counts := announceAll_again hcounts ⟨rfl, rfl, fun _ => rfl⟩ hheads
  have hunmixed : t₁.Unmixed := by
    have := unmixed_of_clean_announceAll hcounts fun _ h => absurd rfl h
    unfold Unmixed at this ⊢
    rwa [hsame₁.pending, hsame₁.defs]
  have hpend : ∀ name ∈ items.filterMap Stmt.valueName?, t₁.pending.get? name ≠ none := by
    rw [hsame₁.pending]
    exact hnames.pending
  have hahead : Ahead (Stmt.idsAll items) [] s₁ t₁ := ⟨hsame₁, nofun, hunmixed⟩
  obtain ⟨t₂, deferred, hstaged', hdefers, hsame₂, rfl⟩ := declareItems_again options hfun hdecl
    hstaged hahead hnumbered.1 hlt hnames.nodup hpend (hbodies.imp fun _ _ h => h.1)
  rw [← zip_eq_of_zip_eq hheads.length_eq hzip] at hstaged'
  rw [nil_append] at hsame₂
  -- Warnings come last in both runs.
  have hlast : s₃.Same s' := by
    rw [← eq_of_clean_warnUnused hwarned]
    exact ⟨rfl, rfl, fun _ => rfl⟩
  refine Again.of_same ?_ hlast
  cases deferred with
  | nil =>
    exact program_again hcounts' hstaged' (hagain t₂ hsame₂) (hdefers.nextId.trans hnext₁)
  | cons first rest =>
    -- The handler of the initializers comes before all other bodies.
    have hhandler := again_startup hdefers hstarts rfl
    refine program_again (clean_announce_handler hcounts')
      (clean_declare_handler hstaged') ?_ (hdefers.nextId.trans hnext₁)
    rw [mapM_cons]
    refine Again.bind ⟨_, hhandler, hsame₂, nextId_marked _⟩ fun t₃ hsame₃ => ?_
    refine (hagain t₃ hsame₃).bind fun _ => Again.pure

private theorem analyze_of_clean {catalog : Catalog} {options : AnalysisOptions} {program : Program}
    {statements : List Stmt} {s : AnalysisState}
    (h : Clean (Analyzer.program { catalog, options } program.statements)
    { nextId := program.nextId } statements s) : analyze catalog options program =
      ⟨⟨statements, s.nextId⟩, s.defs, s.types, s.warnings, []⟩ := by
  obtain ⟨hrun, herrs⟩ := h
  unfold analyze
  rw [hrun]
  exact congrArg _ herrs

/-- The analysis of a parsed program is a fixed point. Where it reports no error for the robot, the
analysis of the program that it returns reports none either, whichever warnings are asked for. It
returns the same program and the same declarations, and gives every expression the same type. -/
theorem analyze_analyze (options options' : AnalysisOptions) (tokens : List Token)
    (h : (analyze Robot.catalog options (parse tokens).program).errors = []) :
    let first := analyze Robot.catalog options (parse tokens).program
    let second := analyze Robot.catalog options' first.program
    second.errors = [] ∧ second.program = first.program ∧ second.defs = first.defs ∧
      ∀ id, second.types.get? id = first.types.get? id := by
  intro first second
  obtain ⟨s, hclean, hnext, hdefs, htypes⟩ := clean_of_errors_analyze h
  obtain ⟨t, hagain, hsame, hcounter⟩ := again_program options' Robot.starts rfl rfl
    (parse_parsed tokens).numbered hclean first.program.nextId
  have hsnd : second = _ := analyze_of_clean hagain
  rw [hsnd, hdefs, htypes]
  exact ⟨rfl, congrArg (Program.mk first.program.statements) hcounter, hsame.defs, hsame.types⟩

/-- A program whose variables are initialized at its start, one of them in a body. -/
def headStart : Source :=
  Source.ofText <| "var lead = timer\nvar goal: number = lead + 1\n@button \"a\":\n" ++
    "  var rest = goal - lead\n  drive.move(rest)\n"

/-- It stays as it is. -/
theorem analyze_analyze_headStart :
    let first := analyze Robot.catalog {} (parse (scan "main.bot" headStart).tokens).program
    let second := analyze Robot.catalog { warnUnused := false } first.program
    first.errors = [] ∧ first.program.statements.length = 4 ∧ second.errors = [] ∧
      second.program = first.program ∧ second.defs = first.defs ∧
      ∀ id, second.types.get? id = first.types.get? id := by
  have herrs :
      (analyze Robot.catalog {} (parse (scan "main.bot" headStart).tokens).program).errors =
      [] := by
    decide +kernel
  exact ⟨herrs, by decide +kernel, analyze_analyze {} { warnUnused := false } _ herrs⟩

/-- A variable that is a picture. Folded, the picture is a text, which the variable does not take
again. -/
def namedPicture : Source :=
  Source.ofText "var p = image(\"\")\n@start:\n  display.show(p)\n"

/-- Folded, it is not accepted again. -/
theorem again_namedPicture :
    let first := analyze Robot.catalog {} (parse (scan "main.bot" namedPicture).tokens).program
    let folded := first.program.fold Robot.catalog first.types noPictures first.defs
    first.errors = [] ∧ folded.errors = [] ∧
      (analyze Robot.catalog {} folded.program).errors.length = 1 := by
  decide +kernel

end BlockScript
