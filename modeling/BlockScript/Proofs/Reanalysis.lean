import BlockScript.Proofs.CleanStatements

/-!
# Statements analyzed again

The analysis of a statement that reports nothing replaces it by statements that stay as they are
when they are analyzed again. An initializer that has become an assignment is typed the same where
its variable is declared already, since it does not use the variable. The second run declares the
same and comes to the same types.
-/

namespace BlockScript

variable {name : String} {span : Span} {type : Option DataType} {rest : List Stmt}

open AnalysisState

namespace Analyzer

variable {α β : Type} {x : Analyzer α} {f : α → Analyzer β} {a : α} {b : β}
  {s s' s₁ s₂ t t' : AnalysisState} {scope : Scope}

/-- Whether a step is clean, comes to what another state says and takes no number. -/
def Again (s' : AnalysisState) (x : Analyzer α) (t : AnalysisState) (a : α) : Prop :=
  ∃ t', Clean x t a t' ∧ s'.Same t' ∧ t'.nextId = t.nextId

/-- A result. -/
theorem Again.pure (h : s.Same t) :
    Again s (pure a) t a := ⟨t, clean_pure_iff.mpr ⟨rfl, rfl⟩, h, rfl⟩

/-- One analyzer after another. -/
theorem Again.bind (hx : Again s₁ x t a) (hf : ∀ t₁, s₁.Same t₁ → Again s₂ (f a) t₁ b) :
    Again s₂ (x >>= f) t b := by
  obtain ⟨t₁, hclean, hsame, hnext⟩ := hx
  obtain ⟨t₂, hclean', hsame', hnext'⟩ := hf t₁ hsame
  exact ⟨t₂, hclean.bind hclean', hsame', hnext'.trans hnext⟩

/-- Whether a statement stays as it is when it is analyzed between two states. -/
def Repeats (scope : Scope) (s : AnalysisState) (stmt : Stmt) (s' : AnalysisState) : Prop :=
  ∀ t, s.Same t → ∃ stops, Again s' (statement scope stmt) t ([stmt], stops)

/-- Whether statements stay as they are when they are analyzed between two states. -/
def RepeatsAll (scope : Scope) (s : AnalysisState) (stmts : List Stmt) (s' : AnalysisState) :
    Prop :=
  ∀ stopped t, s.Same t → Again s' (statements scope stopped stmts) t stmts

private theorem RepeatsAll.nil (scope : Scope) (s : AnalysisState) : RepeatsAll scope s [] s := by
  intro stopped t hsame
  rw [statements]
  exact .pure hsame

private theorem RepeatsAll.cons {stmt : Stmt} (hstmt : Repeats scope s stmt s₁)
    (hrest : RepeatsAll scope s₁ rest s₂) : RepeatsAll scope s (stmt :: rest) s₂ := by
  intro stopped t hsame
  rw [statements]
  have hboth (t : AnalysisState) (hsame : s.Same t) : Again s₂ (do
      let p ← statement scope stmt
      return p.1 ++ (← statements scope (stopped || p.2) rest)) t (stmt :: rest) := by
    obtain ⟨stops, hagain⟩ := hstmt t hsame
    exact hagain.bind fun t₁ hsame₁ => (hrest (stopped || stops) t₁ hsame₁).bind fun t₂ hsame₂ =>
      Again.pure hsame₂
  dsimp only
  split
  · refine Again.bind ⟨{ t with warnings := _ }, ⟨rfl, rfl⟩, ?_, rfl⟩ hboth
    exact ⟨hsame.defs, hsame.pending, hsame.types⟩
  · exact hboth t hsame

private theorem entity?_of_declaring {other : String} {entity : Entity}
    (hdeclaring : scope.declaring = none) (hparam : scope.param? s.defs name = none)
    (h : ({ scope with declaring := some name }.view s).entity? other = some entity)
    (type : DataType) (span : Span) :
    (scope.view (s.declare (·.addVariable name type span))).entity? other = some entity := by
  have hadds := (s.defs.inserts_addVariable name type span).adds
  rw [Scope.entity?_view] at h ⊢
  unfold Scope.entity? at h ⊢
  have hsame : scope.param? (s.declare (·.addVariable name type span)).defs other =
      { scope with declaring := some name }.param? s.defs other := rfl
  rw [hsame]
  by_cases hname : name = other
  · subst hname
    have hself : Scope.param? { scope with declaring := some name } s.defs name = none := hparam
    simp [hself] at h
  · have hent : (s.declare (·.addVariable name type span)).defs.entity? other =
        s.defs.entity? other := by
      have hlook (kind : DeclarationKind) :
          (s.defs.addVariable name type span).lookup kind other = s.defs.lookup kind other := by
        rw [hadds, if_neg fun h => hname h.2]
      unfold Definitions.entity?
      rw [show (s.declare (·.addVariable name type span)).defs.lookup =
        (s.defs.addVariable name type span).lookup from rfl, hlook, hlook, hlook]
    rw [hent, hdeclaring, if_neg nofun]
    rwa [if_neg fun h => hname (Option.some.inj h)] at h

/-- An initializer that has a type where its variable is declared has the same type after the
declaration. -/
theorem inferred?_of_declaring (hdeclaring : scope.declaring = none)
    (hparam : scope.param? s.defs name = none) {e : Expr} {p : DataType × List Mark}
    (h : e.inferred? ({ scope with declaring := some name }.view s) = some p) (type : DataType)
    (span : Span) :
    e.inferred? (scope.view (s.declare (·.addVariable name type span))) = some p := by
  have hagrees : View.Agrees ({ scope with declaring := some name }.view s)
      (scope.view (s.declare (·.addVariable name type span))) e.names :=
    ⟨rfl, fun _ _ _ hent => entity?_of_declaring hdeclaring hparam hent type span, fun _ _ h =>
      h, fun _ _ => rfl⟩
  exact Expr.inferred?_of_agrees hagrees h

/-- The assignment of an initializer is clean once the variable is declared. -/
theorem clean_assign_initializer {init : Expr} {w : Variable} {found : DataType} {marks : List Mark}
    (hparam : scope.param? s.defs name = none)
    (hlook : s.defs.lookup .variable name = some (.scalar w)) (hassign : w.type.assignable found)
    (hinit : init.inferred? (scope.view s) = some (found, marks)) :
    Clean (statement scope (.assign name .set init span)) s ([.assign name .set init span], false)
      (s.marked marks) := by
  have hassigns : (scope.view s).assigns? name .set found = some [] := by
    unfold View.assigns?
    rw [show (scope.view s).param? name = none from hparam,
      show (scope.view s).lookup .variable name = some (.scalar w) from hlook]
    simp [DataType.accepts, hassign]
  exact clean_assign_iff.mpr ⟨found, marks, [], hinit, hassigns, rfl, by rw [List.append_nil]⟩

/-- A free name is free again. -/
theorem Free.again (h : Free scope name s) (hsame : s.Same t) (options : AnalysisOptions) :
    Free { scope with options } name t := by
  obtain ⟨hparam, hnew, hpend⟩ := h
  unfold Free
  rw [hsame.defs, hsame.pending]
  exact ⟨hparam, hnew, hpend⟩

private theorem repeatsAll_varDecl {value : Option Expr} {hoisted : Bool} {outs : List Stmt}
    {stops : Bool} (options : AnalysisOptions) (hdeclaring : scope.declaring = none)
    (h : Clean (statement scope (.varDecl name type value hoisted span)) s (outs, stops) s')
    (hrest : RepeatsAll { scope with options } s' rest s₂) :
    RepeatsAll { scope with options } s (outs ++ rest) s₂ := by
  obtain ⟨hfree, p, hclean, heq⟩ := clean_varDecl_iff.mp h
  cases hlist : ((value.bind Expr.items?).isSome || type.any DataType.isList) with
  | true =>
    obtain ⟨element, marks, hlisted, rfl, rfl⟩ := (clean_declareVariable_list_iff hlist).mp hclean
    cases heq
    refine RepeatsAll.cons (fun t hsame => ⟨false, _, ?_, (hsame.marked marks).declare _, ?_⟩) hrest
    · refine clean_varDecl_iff.mpr ⟨hfree.again hsame options, _,
        (clean_declareVariable_list_iff hlist).mpr ⟨element, marks, ?_, rfl, rfl⟩, rfl⟩
      rwa [hsame.view_eq rfl rfl rfl]
    · exact nextId_marked marks
  | false =>
    cases hoisted with
    | true =>
      obtain ⟨rfl, rfl⟩ := (clean_declareVariable_hoisted_iff hlist).mp hclean
      cases heq
      refine RepeatsAll.cons (fun t hsame => ⟨false, _, ?_, hsame.declare _, rfl⟩) hrest
      exact clean_varDecl_iff.mpr ⟨hfree.again hsame options, _,
        (clean_declareVariable_hoisted_iff hlist).mpr ⟨rfl, rfl⟩, rfl⟩
    | false =>
      obtain ⟨init, target, found, marks, next, rfl, hinit, hassign, htarget, _, _, _, rfl⟩ :=
        exists_of_clean_declareVariable hlist hclean
      cases heq
      have hmarks : ∀ m ∈ marks, m.Of s.defs fun _ => True :=
        (leaves_exprType { scope with declaring := some name } init fun _ _ => trivial).of_mem hinit
      have hlist' : (((none : Option Expr).bind Expr.items?).isSome ||
          (some target).any DataType.isList) = false := by simpa using htarget
      -- The variable is declared first, and its initializer is typed after it.
      have hdecl : Repeats { scope with options } s (.varDecl name (some target) none true span)
          (s.declare (·.addVariable name target span)) := fun t hsame =>
        ⟨false, _, clean_varDecl_iff.mpr ⟨hfree.again hsame options, _,
          (clean_declareVariable_hoisted_iff hlist').mpr ⟨rfl, rfl⟩, rfl⟩, hsame.declare _, rfl⟩
      refine RepeatsAll.cons hdecl (RepeatsAll.cons (fun t hsame => ?_) hrest)
      have hlook := (s.defs.inserts_addVariable name target span).adds .variable name
      rw [if_pos ⟨rfl, rfl⟩, ← show t.defs = s.defs.addVariable name target span from
        hsame.defs] at hlook
      have hinit' := inferred?_of_declaring hdeclaring hfree.1 hinit target span
      rw [← hsame.view_eq rfl rfl rfl] at hinit'
      have hparam := hfree.1
      rw [show scope.param? s.defs name = scope.param? t.defs name by
        rw [hsame.defs]; rfl] at hparam
      refine ⟨false, t.marked marks, clean_assign_initializer hparam hlook hassign hinit', ?_,
        nextId_marked marks⟩
      have hfresh : { s with nextId := next }.defs.Undeclared name := hfree.2.1
      rw [declare_marked (Definitions.declares_addVariable name target span) hfresh hmarks]
      refine Same.marked ?_ marks
      exact ⟨hsame.defs, hsame.pending, hsame.types⟩

mutual

private theorem repeatsAll_statement (options : AnalysisOptions)
    (hdeclaring : scope.declaring = none) :
    ∀ (stmt : Stmt) {s s' s'' : AnalysisState} {outs : List Stmt} {stops : Bool},
      Clean (statement scope stmt) s (outs, stops) s' → ∀ {rest : List Stmt},
      RepeatsAll { scope with options } s' rest s'' →
      RepeatsAll { scope with options } s (outs ++ rest) s''
  | .varDecl .., _, _, _, _, _, h, _, hrest => repeatsAll_varDecl options hdeclaring h hrest
  | .constDecl name type value span, s, s', _, _, _, h, _, hrest => by
    obtain ⟨hfree, hclean, heq⟩ := clean_constDecl_iff.mp h
    cases heq
    obtain ⟨found, marks, hfound, hlist, htype, rfl⟩ := clean_declareConstant_iff.mp hclean
    refine RepeatsAll.cons
      (fun t hsame => ⟨false, _, ?_, (hsame.marked marks).declare _, nextId_marked marks⟩) hrest
    refine clean_constDecl_iff.mpr ⟨hfree.again hsame options,
      clean_declareConstant_iff.mpr ⟨found, marks, ?_, hlist, htype, rfl⟩, rfl⟩
    rwa [hsame.view_eq rfl rfl rfl]
  | .funcDecl .., _, _, _, _, _, h, _, _ => (not_clean_nested rfl rfl h).elim
  | .event .., _, _, _, _, _, h, _, _ => (not_clean_nested rfl rfl h).elim
  | .call name args span, _, _, _, _, stops, h, _, hrest => by
    obtain ⟨types, marks, more, htypes, hcalls, rfl, rfl⟩ := clean_call_iff.mp h
    refine RepeatsAll.cons
      (fun t hsame => ⟨stops, _, clean_call_iff.mpr ⟨types, marks, more, ?_, ?_, rfl, rfl⟩,
      hsame.marked _, nextId_marked _⟩) hrest
    · rwa [hsame.view_eq rfl rfl rfl]
    · rwa [hsame.view_eq rfl rfl rfl]
  | .assign target op value span, _, _, _, _, _, h, _, hrest => by
    obtain ⟨found, marks, more, hfound, hassigns, heq, rfl⟩ := clean_assign_iff.mp h
    cases heq
    refine RepeatsAll.cons
      (fun t hsame => ⟨false, _, clean_assign_iff.mpr ⟨found, marks, more, ?_, ?_, rfl, rfl⟩,
      hsame.marked _, nextId_marked _⟩) hrest
    · rwa [hsame.view_eq rfl rfl rfl]
    · rwa [hsame.view_eq rfl rfl rfl]
  | .branch condition thenBody elseBody span, s, s', _, _, _, h, _, hrest => by
    obtain ⟨marks, thenOut, s₁, elseOut, hmarks, hthen, helse, heq⟩ := clean_branch_iff.mp h
    cases heq
    refine RepeatsAll.cons (fun t hsame => ?_) hrest
    have hview : Scope.view { scope with options } t = scope.view s := hsame.view_eq rfl rfl rfl
    rw [← hview] at hmarks
    obtain ⟨t₁, hthen', hsame₁, hnext₁⟩ :=
      repeatsAll_statements options hdeclaring thenBody hthen false _ (hsame.marked marks)
    obtain ⟨t₂, helse', hsame₂, hnext₂⟩ :=
      repeatsAll_statements options hdeclaring elseBody helse false t₁ hsame₁
    exact ⟨false, t₂,
      clean_branch_iff.mpr ⟨marks, thenOut, t₁, elseOut, hmarks, hthen', helse', rfl⟩, hsame₂,
      hnext₂.trans (hnext₁.trans (nextId_marked marks))⟩
  | .loop kind body span, s, s', _, _, _, h, _, hrest => by
    obtain ⟨marks, out, hmarks, hbody, heq⟩ := clean_loop_iff.mp h
    cases heq
    refine RepeatsAll.cons (fun t hsame => ?_) hrest
    have hview : Scope.view { scope with options } t = scope.view s := hsame.view_eq rfl rfl rfl
    rw [← hview] at hmarks
    obtain ⟨t₁, hbody', hsame₁, hnext₁⟩ :=
      repeatsAll_statements options hdeclaring body hbody false _ (hsame.marked marks)
    exact ⟨kind.isForever, t₁, clean_loop_iff.mpr ⟨marks, out, hmarks, hbody', rfl⟩, hsame₁,
      hnext₁.trans (nextId_marked marks)⟩

/-- What statements are replaced by stays as it is when it is analyzed again. -/
theorem repeatsAll_statements (options : AnalysisOptions) (hdeclaring : scope.declaring = none) :
    ∀ (stmts : List Stmt) {s s' : AnalysisState} {stopped : Bool} {outs : List Stmt},
      Clean (statements scope stopped stmts) s outs s' → RepeatsAll { scope with options } s outs s'
  | [], s, _, _, _, h => by
    rw [statements] at h
    obtain ⟨rfl, rfl⟩ := clean_pure_iff.mp h
    exact .nil _ s
  | stmt :: rest, s, s', stopped, _, h => by
    obtain ⟨first, stops, s₁, more, hfirst, hmore, rfl⟩ := exists_of_clean_statements_cons h
    have hrest := repeatsAll_statements options hdeclaring rest hmore
    intro stopped t ht
    exact repeatsAll_statement options hdeclaring stmt hfirst hrest stopped t
      ((same_warned s _ _).symm.trans ht)

end

end Analyzer

end BlockScript
