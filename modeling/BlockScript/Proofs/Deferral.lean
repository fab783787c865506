import BlockScript.Proofs.Reanalysis

/-!
# Deferred initializers

In the first run of the analysis, the initializers of the outermost level are typed where their
variables are declared. In a second run they stand in the handler that runs them, and are typed
later: until then, the first run is ahead by their marks. They are typed the same when their turn
comes, since nothing that they mention was still to be declared.
-/

namespace BlockScript

variable {nodes nodes' : Nat → Prop} {name : String} {d d' : Definitions} {span : Span}
  {item out : Stmt} {value : Option Expr} {result : Staged × List Stmt} {staged : Staged}
  {assigns items outs : List Stmt}

open AnalysisState List

namespace AnalysisState

variable {s t u : AnalysisState}

/-- Whether no announced name is declared. -/
def Unmixed (s : AnalysisState) : Prop :=
  ∀ name, s.pending.get? name ≠ none → s.defs.Undeclared name

/-- Whether a later state says the same of all names that are not announced. -/
structure Later (s t : AnalysisState) : Prop where
  lookup : ∀ name, s.pending.get? name = none →
    ∀ kind, t.defs.lookup kind name = s.defs.lookup kind name
  value? : ∀ name, s.pending.get? name = none → t.defs.value? name = s.defs.value? name
  pending : ∀ name, s.pending.get? name = none → t.pending.get? name = none

namespace Later

/-- Nothing has come later. -/
theorem refl (s : AnalysisState) : Later s s := ⟨fun _ _ _ => rfl, fun _ _ => rfl, fun _ h => h⟩

private theorem trans (h : Later s t) (h' : Later t u) : Later s u where
  lookup name hname kind :=
    (h'.lookup name (h.pending name hname) kind).trans (h.lookup name hname kind)
  value? name hname := (h'.value? name (h.pending name hname)).trans (h.value? name hname)
  pending name hname := h'.pending name (h.pending name hname)

/-- Marks may come later. -/
theorem marked (h : Later s t) (marks : List Mark) : Later s (t.marked marks) where
  lookup name hname kind := by
    rw [lookup_marked]
    exact h.lookup name hname kind
  value? name hname := by
    rw [value?_marked]
    exact h.value? name hname
  pending name hname := by
    rw [pending_marked]
    exact h.pending name hname

end Later

private theorem unannounce_marked (name : String) (marks : List Mark) :
    (s.marked marks).unannounce name = (s.unannounce name).marked marks := by
  induction marks generalizing s with
  | nil => rfl
  | cons m rest ih =>
    have hmark : (s.mark m).unannounce name = (s.unannounce name).mark m := by cases m <;> rfl
    rw [marked_cons, ih, hmark, marked_cons]

private theorem Same.unannounce (h : s.Same t) (name : String) :
    (s.unannounce name).Same (t.unannounce name) :=
  ⟨h.defs, congrArg (·.erase name) h.pending, h.types⟩

private theorem Later.of_mark (hlater : s.Later t) (hunmixed : s.Unmixed) :
    ∀ {m : Mark}, m.Of s.defs nodes → m.Of t.defs nodes
  | .record _ _, h => h
  | .use kind name, h => by
    have hpend : s.pending.get? name = none := by
      by_contra hpend
      exact h (hunmixed name hpend kind)
    intro hnone
    rw [hlater.lookup name hpend] at hnone
    exact h hnone

end AnalysisState

/-- Whether two definitions differ in what they say of a name only. -/
def Definitions.DifferAt (name : String) (d d' : Definitions) : Prop :=
  ∀ other, other ≠ name →
    (∀ kind, d'.lookup kind other = d.lookup kind other) ∧ d'.value? other = d.value? other

private theorem Definitions.Adds.differAt {kind : DeclarationKind} {decl : Declaration}
    (h : d.Adds kind name decl d') (hvalue : ∀ other, other ≠ name →
      d'.value? other = d.value? other) : d.DifferAt name d' := by
  refine fun other hother => ⟨fun kind' => ?_, hvalue other hother⟩
  rw [h, if_neg fun heq => hother heq.2.symm]

namespace Definitions

private theorem differAt_addVariable (d : Definitions) (name : String) (type : DataType)
    (span : Span) : d.DifferAt name (d.addVariable name type span) :=
  (d.inserts_addVariable name type span).adds.differAt fun _ _ => rfl

private theorem differAt_addList (d : Definitions) (name : String) (element : DataType)
    (span : Span) : d.DifferAt name (d.addList name element span) :=
  (d.inserts_addList name element span).adds.differAt fun _ _ => rfl

private theorem differAt_addConstant (d : Definitions) (name : String) (type : DataType)
    (value : Option Value) (span : Span) :
    d.DifferAt name (d.addConstant name type value span) := by
  refine (d.inserts_addConstant name type value span).adds.differAt fun other hother => ?_
  change ((d.constants.insert name _).get? other).bind _ = (d.constants.get? other).bind _
  rw [Table.get?_insert, if_neg (Ne.symm hother)]

private theorem differAt_elim {change : DataType → Definitions → Definitions}
    (h : ∀ type d, DifferAt name d (change type d)) (type : Option DataType) (d : Definitions) :
    d.DifferAt name (type.elim d (change · d)) := by
  cases type with
  | none => exact fun _ _ => ⟨fun _ => rfl, rfl⟩
  | some type => exact h type d

end Definitions

private theorem Mark.Of.mono (hnodes : ∀ id, nodes id → nodes' id) :
    ∀ {m : Mark}, m.Of d nodes → m.Of d nodes'
  | .use _ _, h => h
  | .record id _, h => hnodes id h

private theorem Mark.Of.of_differAt (hfresh : d.Undeclared name) (hdiffer : d.DifferAt name d') :
    ∀ {m : Mark}, m.Of d nodes → m.Of d' nodes
  | .record _ _, h => h
  | .use kind other, h => by
    have hne : other ≠ name := by
      rintro rfl
      exact h (hfresh kind)
    intro hnone
    rw [(hdiffer other hne).1] at hnone
    exact h hnone

private theorem AnalysisState.later_of_differAt {s t : AnalysisState} (hunmixed : s.Unmixed)
    (hname : s.pending.get? name ≠ none) (hpend : t.pending = s.pending.erase name)
    (hdiffer : s.defs.DifferAt name t.defs) : s.Later t ∧ t.Unmixed := by
  have hne {other : String} (hother : s.pending.get? other = none) : other ≠ name := by
    rintro rfl
    exact hname hother
  refine ⟨⟨fun other hother => (hdiffer other (hne hother)).1, fun other hother =>
    (hdiffer other (hne hother)).2, fun other hother => ?_⟩, fun other hother kind => ?_⟩
  · rw [hpend, Table.get?_erase, hother]
    simp
  · rw [hpend, Table.get?_erase] at hother
    split at hother
    · exact absurd rfl hother
    · rename_i hother'
      rw [(hdiffer other (Ne.symm hother')).1]
      exact hunmixed other hother kind

section Outermost

variable {s t : AnalysisState} {scope : Scope}

/-- Parameters are in functions. -/
theorem Scope.param?_eq_none (hfun : scope.function = none) (d : Definitions) (name : String) :
    scope.param? d name = none := by
  unfold Scope.param? Scope.function?
  rw [hfun]
  rfl

private theorem Scope.pending_eq_none_of_entity? (hfun : scope.function = none)
    (hunmixed : s.Unmixed) (h : (scope.view s).entity? name ≠ none) :
    s.pending.get? name = none := by
  by_contra hpend
  have hcontains : s.pending.contains name = true := by
    rw [Table.contains]
    exact Option.isSome_iff_ne_none.mpr hpend
  have hnew := hunmixed name hpend
  refine h ?_
  rw [Scope.entity?_view]
  unfold Scope.entity? Definitions.entity?
  simp [Scope.param?_eq_none hfun, hnew .variable, hnew .list, hnew .constant, hcontains]

private theorem Expr.inferred?_of_later (hfun : scope.function = none) (hunmixed : s.Unmixed)
    (hlater : s.Later t) {e : Expr} {p : DataType × List Mark}
    (h : e.inferred? (scope.view s) = some p) : e.inferred? (scope.view t) = some p := by
  have hpend (q : Nat × String) (hq : q ∈ e.names) : s.pending.get? q.2 = none :=
    Scope.pending_eq_none_of_entity? hfun hunmixed ((Expr.resolves h).known q hq)
  suffices hagrees :
    View.Agrees (scope.view s) (scope.view t) e.names from Expr.inferred?_of_agrees hagrees h
  refine ⟨rfl, fun q hq entity hent => ?_, fun q hq hlist => ?_, fun q hq => ?_⟩
  · have hlook := hlater.lookup q.2 (hpend q hq)
    have hthere : t.pending.contains q.2 = false :=
      Table.contains_eq_false_iff.mpr (hlater.pending q.2 (hpend q hq))
    have hhere : s.pending.contains q.2 = false := Table.contains_eq_false_iff.mpr (hpend q hq)
    rw [Scope.entity?_view] at hent ⊢
    unfold Scope.entity? Definitions.entity? at hent ⊢
    rw [Scope.param?_eq_none hfun] at hent ⊢
    rwa [hlook, hlook, hlook, hthere, ← hhere]
  · unfold View.isList at hlist ⊢
    rw [show (scope.view t).lookup = t.defs.lookup from rfl, hlater.lookup q.2 (hpend q hq)]
    exact hlist
  · exact hlater.value? q.2 (hpend q hq)

end Outermost

namespace Analyzer

variable {α : Type} {s s' t t' u : AnalysisState} {scope : Scope} {marks more : List Mark}

section Announcements

private theorem checkUnique_bind_again {f : Bool → Analyzer α} {a : α}
    (hf : Within Reports (f false)) (h : Clean (checkUnique scope name span >>= f) s a s')
    (hsame : s.Same t) (hfree : Clean (f true) s a s' → Again s' (f true) t a) :
    Again s' (checkUnique scope name span >>= f) t a := by
  obtain ⟨hname, hclean⟩ := (clean_checkUnique_bind_iff hf).mp h
  obtain ⟨t', hclean', hagain⟩ := hfree hclean
  exact ⟨t', (clean_checkUnique_bind_iff hf).mpr ⟨hname.again hsame scope.options, hclean'⟩, hagain⟩

private theorem announce_again {counts : Bool} (h : Clean (announce scope item) s counts s')
    (hsame : s.Same t) : Again s' (announce scope item) t counts := by
  have hvalue {name : String} {span : Span}
      (h : Clean (modify (fun s => { s with pending := s.pending.insert name span }) >>= fun _ =>
      pure true) s counts s') :
        Again s' (modify (fun s => { s with pending := s.pending.insert name span }) >>=
          fun _ => pure true) t counts := by
    obtain ⟨rfl, rfl⟩ : true = counts ∧ { s with pending := s.pending.insert name span } = s' :=
      clean_pure_iff.mp h
    refine ⟨{ t with pending := t.pending.insert name span }, ⟨rfl, rfl⟩, ?_, rfl⟩
    exact ⟨hsame.defs, by rw [hsame.pending], hsame.types⟩
  unfold announce at h ⊢
  split at h
  · exact checkUnique_bind_again (.pure _) h hsame hvalue
  · exact checkUnique_bind_again (.pure _) h hsame hvalue
  · refine checkUnique_bind_again (.pure _) h hsame fun h => ?_
    rw [if_pos rfl, clean_bind_iff (declaring_reports.checkParameters _ fun _ _ => trivial) fun _ =>
      (reports_define _).bind fun _ => .pure _] at h
    obtain ⟨_, _, hparams, h⟩ := h
    obtain ⟨rfl, hagain⟩ := eq_of_clean_checkParameters hparams
    rw [clean_define_bind_iff] at h
    obtain ⟨rfl, rfl⟩ := clean_pure_iff.mp h
    exact ⟨_, (hagain t).bind (clean_define_bind_iff.mpr (clean_pure_iff.mpr ⟨rfl, rfl⟩)),
      hsame.declare _, rfl⟩
  · refine checkUnique_bind_again (.pure _) h hsame fun h => ?_
    rw [if_pos rfl, clean_define_bind_iff] at h
    obtain ⟨rfl, rfl⟩ := clean_pure_iff.mp h
    exact ⟨_, clean_define_bind_iff.mpr (clean_pure_iff.mpr ⟨rfl, rfl⟩), hsame.declare _, rfl⟩
  · obtain ⟨rfl, rfl⟩ := clean_pure_iff.mp h
    exact .pure hsame

/-- The announcement of items goes the same way again for items that are announced like them. -/
theorem announceAll_again {counts : List Bool} {scope' : Scope}
    (h : Clean (items.mapM (announce scope)) s counts s') (hsame : s.Same t)
    (houts : List.Forall₂ (fun item out => announce scope' out = announce scope item) items outs) :
    Again s' (outs.mapM (announce scope')) t counts := by
  induction houts generalizing s t counts with
  | nil =>
    obtain ⟨rfl, rfl⟩ := clean_pure_iff.mp h
    exact .pure hsame
  | cons hout _ ih =>
    rename_i item out items outs _
    obtain ⟨first, s₁, rest, hfirst, hrest, rfl⟩ :=
      (clean_mapM_cons_iff (reports_announce scope)).mp h
    rw [mapM_cons, hout]
    refine Again.bind (announce_again hfirst hsame) fun t₁ hsame₁ => ?_
    refine Again.bind (ih hrest hsame₁) ?_
    exact fun _ => Again.pure

end Announcements

section Declarations

private theorem same_declare {change : Definitions → Definitions} (hlag : s.Same (t.marked marks))
    (hmarks : ∀ m ∈ marks, m.Of t.defs nodes) (hmore : ∀ m ∈ more, m.Of t.defs nodes')
    (hapart : ∀ id, nodes id → ¬ nodes' id) (hchange : Definitions.Declares name change)
    (hfresh : t.defs.Undeclared name) :
    ((s.marked more).declare change).Same (((t.marked more).declare change).marked marks) := by
  have hlook : (t.marked more).defs.lookup = t.defs.lookup := lookup_marked more
  have hfresh' : (t.marked more).defs.Undeclared name := by
    unfold Definitions.Undeclared
    rwa [hlook]
  have hmarks' : ∀ m ∈ marks, m.Of (t.marked more).defs nodes := by
    intro m hm
    have := hmarks m hm
    unfold Mark.Of at this ⊢
    rwa [hlook]
  rw [← declare_marked hchange hfresh' hmarks']
  exact ((hlag.marked more).trans (same_marked_marked hmarks hmore hapart)).declare change

/-- How an item is staged that is analyzed again. -/
def restaged : Stmt → Staged
  | stmt@(.varDecl ..) | stmt@(.constDecl ..) => .settled stmt
  | stmt => .pending stmt

/-- Whether an item is what a staged item may become. -/
def Becomes : Staged → Stmt → Prop
  | .settled stmt, out => out = stmt
  | .pending _, out => out.valueName? = none

/-- Whether the first run is ahead of the second one by marks that are not those of some nodes. -/
structure Ahead (ids : List Nat) (marks : List Mark) (s t : AnalysisState) : Prop where
  same : s.Same (t.marked marks)
  of_mem : ∀ m ∈ marks, m.Of t.defs fun id => id ∉ ids
  unmixed : t.Unmixed

/-- Whether the second run goes from one state to another and leaves assignments for later, each
with its marks, that are clean whenever their turn comes. -/
structure Defers (scope : Scope) (nodes : Nat → Prop) (t t' : AnalysisState)
    (deferred : List (Stmt × List Mark)) : Prop where
  later : t.Later t'
  unmixed : t'.Unmixed
  nextId : t'.nextId = t.nextId
  of_mem : ∀ p ∈ deferred, ∀ m ∈ p.2, m.Of t'.defs nodes
  replays : ∀ p ∈ deferred, ∀ u, t'.Later u → Clean (statement scope p.1) u ([p.1], false)
    (u.marked p.2)

private theorem declareItem_of_valueName? (scope : Scope) (h : item.valueName? = none) :
    declareItem scope item = pure (.pending item, []) ∧ restaged item = .pending item := by
  cases item <;> first
    | exact ⟨rfl, rfl⟩
    | cases h

section Again

variable {options : AnalysisOptions} {name : String} {type : Option DataType} {span : Span}
  {deferred : List (Stmt × List Mark)}

private theorem defers_declare {ids : List Nat} {change : Definitions → Definitions}
    (hahead : Ahead ids marks s t) (hname : t.pending.get? name ≠ none)
    (hmore : ∀ m ∈ more, m.Of (t.unannounce name).defs fun id => id ∈ ids)
    (hchange : Definitions.Declares name change)
    (hdiffer : ∀ d : Definitions, d.DifferAt name (change d)) :
    Defers scope nodes t (((t.unannounce name).marked more).declare change) [] ∧
      (((s.unannounce name).marked more).declare change).Same
        ((((t.unannounce name).marked more).declare change).marked marks) := by
  have hlater : t.Later (((t.unannounce name).marked more).declare change) ∧
      (((t.unannounce name).marked more).declare change).Unmixed := by
    refine later_of_differAt hahead.unmixed hname (pending_marked more) fun other hother => ?_
    obtain ⟨hlook, hvalue⟩ := hdiffer ((t.unannounce name).marked more).defs other hother
    refine ⟨fun kind => (hlook kind).trans ?_, hvalue.trans ?_⟩
    · rw [lookup_marked]
      rfl
    · rw [value?_marked]
      rfl
  have hsame := hahead.same.unannounce name
  rw [unannounce_marked] at hsame
  exact ⟨⟨hlater.1, hlater.2, nextId_marked more, nofun, nofun⟩,
    same_declare hsame hahead.of_mem hmore (fun _ h => h) hchange (hahead.unmixed name hname)⟩

/-- What the second run makes of an item while the first one is ahead. Other names stay
announced. -/
def Resumes (scope : Scope) (item : Stmt) (marks : List Mark) (s' t : AnalysisState) (next : Nat)
    (out : Stmt) (assigns : List Stmt) : Prop :=
  ∃ t' deferred, Clean (declareItem scope out) t (restaged out, []) t' ∧
    (∀ other, item.valueName? ≠ some other → t'.pending.get? other = t.pending.get? other) ∧
    Defers scope (fun id => id ∈ item.ids ∨ next ≤ id) t t' deferred ∧
    s'.Same (t'.marked (marks ++ deferred.flatMap Prod.snd)) ∧ deferred.map Prod.fst = assigns

private theorem get?_unannounce (more : List Mark) {other : String} (h : some name ≠ some other) :
    ((t.unannounce name).marked more).pending.get? other = t.pending.get? other := by
  rw [pending_marked]
  exact (Table.get?_erase t.pending name other).trans (if_neg fun heq => h (congrArg some heq))

private theorem Ahead.view_declaring {ids : List Nat} (h : Ahead ids marks s t) (scope : Scope)
    (options : AnalysisOptions) (name : String) :
    { scope with options, declaring := some name }.view (t.unannounce name) =
      { scope with declaring := some name }.view (s.unannounce name) := by
  have hsame := h.same.unannounce name
  rw [unannounce_marked] at hsame
  rw [← Scope.view_marked _ (t.unannounce name) marks]
  exact hsame.view_eq rfl rfl rfl

private theorem resumes_constDecl {value : Expr} (hahead : Ahead value.ids marks s t)
    (hname : t.pending.get? name ≠ none)
    (h : Clean (declareItem scope (.constDecl name type value span)) s (staged, assigns) s')
    (hout : Becomes staged out) :
    Resumes { scope with options } (.constDecl name type value span) marks s' t s.nextId out
    assigns := by
  obtain ⟨hclean, heq⟩ := clean_declareItem_constDecl_iff.mp h
  cases heq
  obtain rfl : out = _ := hout
  obtain ⟨found, more, hfound, hlist, htype, rfl⟩ := clean_declareConstant_iff.mp hclean
  rw [← hahead.view_declaring scope options name] at hfound
  have hmore : ∀ m ∈ more, m.Of (t.unannounce name).defs fun id => id ∈ value.ids :=
    (leaves_exprType _ value fun _ hid => hid).of_mem hfound
  obtain ⟨hdefers, hsame⟩ := defers_declare hahead hname hmore
    (Definitions.declares_addConstant name found value.value? span)
    (fun d => d.differAt_addConstant name found value.value? span)
  refine ⟨_, [], clean_declareItem_constDecl_iff.mpr
    ⟨clean_declareConstant_iff.mpr ⟨found, more, hfound, hlist, htype, rfl⟩, rfl⟩,
    fun _ => get?_unannounce more, hdefers, ?_, rfl⟩
  rw [flatMap_nil, append_nil]
  exact hsame

private theorem resumes_hoisted {result : Stmt × Option Stmt} (hfun : scope.function = none)
    (hdecl : scope.declaring = none)
    (hlist : ((value.bind Expr.items?).isSome || type.any DataType.isList) = false)
    (hahead : Ahead (Expr.idsOf? value) marks s t) (hname : t.pending.get? name ≠ none)
    (h : Clean (declareVariable scope name type value false span) (s.unannounce name) result s') :
    Resumes { scope with options } (.varDecl name type value false span) marks s' t s.nextId
    result.1 result.2.toList := by
  obtain ⟨init, target, found, more, next, rfl, hinit, hassign, htarget, hids, _, hnext, rfl⟩ :=
    exists_of_clean_declareVariable hlist h
  have hfresh := hahead.unmixed name hname
  rw [← hahead.view_declaring scope options name] at hinit
  have hmore :
      ∀ m ∈ more, m.Of (t.unannounce name).defs fun id => id ∈ Expr.idsOf? value ∨ s.nextId ≤ id :=
    (leaves_exprType _ init fun id hid => (hids id hid).imp_right And.left).of_mem hinit
  have hdiffer := t.defs.differAt_addVariable name target span
  obtain ⟨hlater, hunmixed⟩ :=
    later_of_differAt (t := (t.unannounce name).declare (·.addVariable name target span))
    hahead.unmixed hname rfl hdiffer
  have hlist' :
      (((none : Option Expr).bind Expr.items?).isSome || (some target).any DataType.isList) =
      false := by
    simpa using htarget
  refine ⟨(t.unannounce name).declare (·.addVariable name target span),
    [(.assign name .set init span, more)], ?_, fun _ => get?_unannounce [],
    ⟨hlater, hunmixed, rfl, ?_, ?_⟩, ?_, rfl⟩
  · exact clean_declareItem_varDecl_iff.mpr
      ⟨_, (clean_declareVariable_hoisted_iff hlist').mpr ⟨rfl, rfl⟩, rfl⟩
  · exact forall_mem_singleton.mpr fun m hm => (hmore m hm).of_differAt hfresh hdiffer
  · refine forall_mem_singleton.mpr fun u hu => ?_
    have hdeclared : u.defs.lookup .variable name =
        (t.defs.addVariable name target span).lookup .variable name :=
      hu.lookup name (by simp [declare, unannounce, Table.get?_erase]) .variable
    rw [(t.defs.inserts_addVariable name target span).adds, if_pos ⟨rfl, rfl⟩] at hdeclared
    have hparam (d : Definitions) : Scope.param? { scope with options } d name = none :=
      Scope.param?_eq_none hfun d name
    have hafter : init.inferred? (Scope.view { scope with options }
        ((t.unannounce name).declare (·.addVariable name target span))) = some (found, more) :=
      inferred?_of_declaring hdecl (hparam _) hinit target span
    exact clean_assign_initializer (hparam _) hdeclared hassign
      (Expr.inferred?_of_later hfun hunmixed hu hafter)
  · have hsame := hahead.same.unannounce name
    rw [unannounce_marked] at hsame
    have hboth : ∀ m ∈ marks ++ more, m.Of (t.unannounce name).defs fun _ => True :=
      forall_mem_append.mpr ⟨fun m hm => (hahead.of_mem m hm).mono fun _ _ => trivial,
        fun m hm => (hmore m hm).mono fun _ _ => trivial⟩
    have hfresh' : (t.unannounce name).defs.Undeclared name := hfresh
    rw [flatMap_singleton, ← declare_marked (Definitions.declares_addVariable name target span)
      hfresh' hboth, marked_append]
    refine Same.declare (Same.marked ?_ more) _
    exact ⟨hsame.defs, hsame.pending, hsame.types⟩

private theorem resumes_varDecl {hoisted : Bool} (hfun : scope.function = none)
    (hdecl : scope.declaring = none) (hahead : Ahead (Expr.idsOf? value) marks s t)
    (hname : t.pending.get? name ≠ none)
    (h : Clean (declareItem scope (.varDecl name type value hoisted span)) s (staged, assigns) s')
    (hout : Becomes staged out) :
    Resumes { scope with options } (.varDecl name type value hoisted span) marks s' t s.nextId out
    assigns := by
  obtain ⟨result, hclean, heq⟩ := clean_declareItem_varDecl_iff.mp h
  cases heq
  obtain rfl : out = _ := hout
  cases hlist : ((value.bind Expr.items?).isSome || type.any DataType.isList) with
  | true =>
    obtain ⟨element, more, hlisted, rfl, rfl⟩ := (clean_declareVariable_list_iff hlist).mp hclean
    rw [← hahead.view_declaring scope options name] at hlisted
    have hmore : ∀ m ∈ more, m.Of (t.unannounce name).defs fun id => id ∈ Expr.idsOf? value :=
      (leaves_listElement name type (fun _ hid => hid) span).of_mem hlisted
    obtain ⟨hdefers, hsame⟩ := defers_declare hahead hname hmore
      (Definitions.declares_elim (fun type => Definitions.declares_addList name type span) element)
      (Definitions.differAt_elim (fun type d => d.differAt_addList name type span) element)
    refine ⟨_, [], clean_declareItem_varDecl_iff.mpr ⟨_, (clean_declareVariable_list_iff hlist).mpr
      ⟨element, more, hlisted, rfl, rfl⟩, rfl⟩, fun _ => get?_unannounce more, hdefers, ?_, rfl⟩
    rw [flatMap_nil, append_nil]
    exact hsame
  | false =>
    cases hoisted with
    | true =>
      obtain ⟨rfl, rfl⟩ := (clean_declareVariable_hoisted_iff hlist).mp hclean
      have hnone :
        ∀ m ∈ [], Mark.Of (t.unannounce name).defs (fun id => id ∈ Expr.idsOf? value) m := nofun
      obtain ⟨hdefers, hsame⟩ := defers_declare hahead hname hnone
        (Definitions.declares_elim (fun type => Definitions.declares_addVariable name type span)
        type) (Definitions.differAt_elim (fun type d => d.differAt_addVariable name type span) type)
      refine ⟨_, [],
        clean_declareItem_varDecl_iff.mpr ⟨_, (clean_declareVariable_hoisted_iff hlist).mpr
        ⟨rfl, rfl⟩, rfl⟩, fun _ => get?_unannounce [], hdefers, ?_, rfl⟩
      rw [flatMap_nil, append_nil]
      exact hsame
    | false => exact resumes_hoisted hfun hdecl hlist hahead hname hclean

private theorem resumes_declareItem (options : AnalysisOptions) (hfun : scope.function = none)
    (hdecl : scope.declaring = none) (hahead : Ahead item.ids marks s t)
    (hname : ∀ name, item.valueName? = some name → t.pending.get? name ≠ none)
    (h : Clean (declareItem scope item) s (staged, assigns) s') (hout : Becomes staged out) :
    Resumes { scope with options } item marks s' t s.nextId out assigns := by
  cases hitem : item.valueName? with
  | none =>
    obtain ⟨hdeclare, _⟩ := declareItem_of_valueName? scope hitem
    rw [hdeclare] at h
    obtain ⟨heq, rfl⟩ := clean_pure_iff.mp h
    cases heq
    obtain ⟨hdeclare', hstaged⟩ := declareItem_of_valueName? { scope with options } hout
    refine ⟨t, [], ?_, fun _ _ => rfl, ⟨.refl t, hahead.unmixed, rfl, nofun, nofun⟩, ?_, rfl⟩
    · rw [hdeclare', hstaged]
      exact clean_pure_iff.mpr ⟨rfl, rfl⟩
    · rw [flatMap_nil, append_nil]
      exact hahead.same
  | some name =>
    cases item with
    | varDecl => exact resumes_varDecl hfun hdecl hahead (hname _ rfl) h hout
    | constDecl => exact resumes_constDecl hahead (hname _ rfl) h hout
    | _ => cases hitem

private theorem nextId_le_of_clean_declareItem
    (hfresh : ∀ name, item.valueName? = some name → s.defs.Undeclared name)
    (h : Clean (declareItem scope item) s result s') : s.nextId ≤ s'.nextId := by
  have hwithin : WithinAt (Grows anything) (declareItem scope item) s :=
    withinAt_declareItem scope item hfresh (fun _ _ _ _ => trivial) fun _ _ => trivial
  exact (Ends.of_ok hwithin h.1).nextId

private theorem Defers.append {t₁ : AnalysisState} {deferred' : List (Stmt × List Mark)}
    (h : Defers scope nodes t t₁ deferred) (h' : Defers scope nodes' t₁ t' deferred') :
    Defers scope (fun _ => True) t t' (deferred ++ deferred') where
  later := h.later.trans h'.later
  unmixed := h'.unmixed
  nextId := h'.nextId.trans h.nextId
  of_mem := forall_mem_append.mpr
    ⟨fun p hp m hm => (h'.later.of_mark h.unmixed (h.of_mem p hp m hm)).mono fun _ _ => trivial,
      fun p hp m hm => (h'.of_mem p hp m hm).mono fun _ _ => trivial⟩
  replays := forall_mem_append.mpr ⟨fun p hp u hu => h.replays p hp u (h'.later.trans hu),
    h'.replays⟩

private theorem Ahead.after {rest : List Stmt}
    (hahead : Ahead (Stmt.idsAll (item :: rest)) marks s t)
    (hnodup : (Stmt.idsAll (item :: rest)).Nodup) (hlt : ∀ id ∈ Stmt.idsAll rest, id < s.nextId)
    (hdefers : Defers scope (fun id => id ∈ item.ids ∨ s.nextId ≤ id) t t' deferred)
    (hsame : s'.Same (t'.marked (marks ++ deferred.flatMap Prod.snd))) :
    Ahead (Stmt.idsAll rest) (marks ++ deferred.flatMap Prod.snd) s' t' where
  same := hsame
  unmixed := hdefers.unmixed
  of_mem := by
    refine forall_mem_append.mpr ⟨fun m hm => ?_, fun m hm => ?_⟩
    · exact (hdefers.later.of_mark hahead.unmixed (hahead.of_mem m hm)).mono fun id hid hmem =>
        hid (mem_append_right _ hmem)
    · obtain ⟨p, hp, hm⟩ := mem_flatMap.mp hm
      refine (hdefers.of_mem p hp m hm).mono fun id hid hmem => ?_
      rcases hid with hid | hid
      · exact (nodup_append.mp hnodup).2.2 id hid id hmem rfl
      · exact absurd (hlt id hmem) (by omega)

/-- The second run goes through all items like the first one, and leaves the initializers for
later. -/
theorem declareItems_again (options : AnalysisOptions) {staged : List Staged}
    (hfun : scope.function = none) (hdecl : scope.declaring = none)
    (h : Clean (declareItems scope (items.map (·, true))) s (staged, assigns) s')
    (hahead : Ahead (Stmt.idsAll items) marks s t) (hnodup : (Stmt.idsAll items).Nodup)
    (hlt : ∀ id ∈ Stmt.idsAll items, id < s.nextId)
    (hnames : (items.filterMap Stmt.valueName?).Nodup)
    (hpend : ∀ name ∈ items.filterMap Stmt.valueName?, t.pending.get? name ≠ none)
    (houts : List.Forall₂ Becomes staged outs) :
    ∃ t' deferred, Clean (declareItems { scope with options } (outs.map (·, true))) t
      (outs.map restaged, []) t' ∧ Defers { scope with options } (fun _ => True) t t' deferred ∧
      s'.Same (t'.marked (marks ++ deferred.flatMap Prod.snd)) ∧
      deferred.map Prod.fst = assigns := by
  induction items generalizing s t marks staged outs assigns with
  | nil =>
    obtain ⟨heq, rfl⟩ := clean_pure_iff.mp h
    cases heq
    cases houts
    refine ⟨t, [], clean_pure_iff.mpr ⟨rfl, rfl⟩, ⟨.refl t, hahead.unmixed, rfl, nofun, nofun⟩,
      ?_, rfl⟩
    rw [flatMap_nil, append_nil]
    exact hahead.same
  | cons item rest ih =>
    obtain ⟨first, firstAssigns, s₁, more, moreAssigns, hfirst, hmore, rfl, rfl⟩ :=
      exists_of_clean_declareItems_cons h
    obtain _ | ⟨hout, houts⟩ := houts
    rename_i out outs
    have hhere : Ahead item.ids marks s t := ⟨hahead.same, fun m hm => (hahead.of_mem m hm).mono
      fun id hid hmem => hid (mem_append_left _ hmem), hahead.unmixed⟩
    have hname (name : String) (hname : item.valueName? = some name) : t.pending.get? name ≠ none :=
      hpend name (mem_filterMap.mpr ⟨item, mem_cons_self, hname⟩)
    have hfresh (name : String) (hitem : item.valueName? = some name) : s.defs.Undeclared name := by
      unfold Definitions.Undeclared
      rw [← hahead.same.defs, lookup_marked]
      exact hahead.unmixed name (hname name hitem)
    obtain ⟨t₁, deferred, hclean, hother, hdefers, hsame, rfl⟩ :=
      resumes_declareItem options hfun hdecl hhere hname hfirst hout
    have hnext := nextId_le_of_clean_declareItem hfresh hfirst
    have hltRest : ∀ id ∈ Stmt.idsAll rest, id < s.nextId := fun id hid =>
      hlt id (mem_append_right _ hid)
    have hpendingRest : ∀ name ∈ rest.filterMap Stmt.valueName?, t₁.pending.get? name ≠ none := by
      intro name hmem
      have hne : item.valueName? ≠ some name := by
        intro hitem
        rw [filterMap_cons_some hitem] at hnames
        exact (nodup_cons.mp hnames).1 hmem
      rw [hother name hne]
      refine hpend name ?_
      obtain ⟨other, hother, heq⟩ := mem_filterMap.mp hmem
      exact mem_filterMap.mpr ⟨other, mem_cons_of_mem _ hother, heq⟩
    have hnamesRest : (rest.filterMap Stmt.valueName?).Nodup :=
      hnames.sublist ((sublist_cons_self item rest).filterMap _)
    obtain ⟨t', deferred', hclean', hdefers', hsame', rfl⟩ := ih hmore
      (hahead.after hnodup hltRest hdefers hsame) (nodup_append.mp hnodup).2.1
      (fun id hid => Nat.lt_of_lt_of_le (hltRest id hid) hnext) hnamesRest hpendingRest houts
    refine ⟨t', deferred ++ deferred', ?_, hdefers.append hdefers', ?_, map_append⟩
    · rw [map_cons, declareItems_cons, if_pos rfl]
      exact hclean.bind (clean_bind_pure_iff.mpr ⟨_, hclean', rfl⟩)
    · rwa [flatMap_append, ← append_assoc]

end Again

end Declarations

end Analyzer

end BlockScript
