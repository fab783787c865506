import BlockScript.Proofs.AnalyzerSteps
import BlockScript.Proofs.Places

/-!
# Runs of folding and what they leave

Folding puts literals in place of expressions and changes nothing else: a node is left as it is,
with its tag, or it has become a literal with the same tag and the nodes below it are gone. So the
numbers of the nodes that are left are among those before, in the same order, and so are their
places.
-/

namespace BlockScript

section

variable {arg : Expr}

open List

namespace Expr

mutual

/-- Whether an expression becomes another one by putting literals in place of nodes, each with the
tag of the node that it replaces. -/
inductive Pruned : Expr → Expr → Prop
  | literal (e : Expr) (value : Value) : Pruned e (.literal e.tag value)
  | ident (tag : Tag) (name : String) : Pruned (.ident tag name) (.ident tag name)
  | call (tag : Tag) (callee : String) {args args' : List Expr} (h : PrunedAll args args') :
    Pruned (.call tag callee args) (.call tag callee args')
  | cast (tag : Tag) (target : DataType) {operand operand' : Expr} (h : Pruned operand operand') :
    Pruned (.cast tag target operand) (.cast tag target operand')
  | list (tag : Tag) {items items' : List Expr} (h : PrunedAll items items') :
    Pruned (.list tag items) (.list tag items')
  | not (tag : Tag) {operand operand' : Expr} (h : Pruned operand operand') :
    Pruned (.not tag operand) (.not tag operand')
  | binary (tag : Tag) (op : BinaryOp) {left left' right right' : Expr} (hleft : Pruned left left')
      (hright : Pruned right right') :
      Pruned (.binary tag op left right) (.binary tag op left' right')
  | group (tag : Tag) {inner inner' : Expr} (h : Pruned inner inner') :
    Pruned (.group tag inner) (.group tag inner')

/-- Whether several expressions become others one by one. -/
inductive PrunedAll : List Expr → List Expr → Prop
  | nil : PrunedAll [] []
  | cons {e e' : Expr} {rest rest' : List Expr} (h : Pruned e e') (hrest : PrunedAll rest rest') :
    PrunedAll (e :: rest) (e' :: rest')

end

mutual

private theorem Pruned.refl : ∀ e : Expr, Pruned e e
  | .ident tag name => .ident tag name
  | .literal tag value => .literal (.literal tag value) value
  | .call tag callee args => .call tag callee (PrunedAll.refl args)
  | .cast tag target operand => .cast tag target (Pruned.refl operand)
  | .list tag items => .list tag (PrunedAll.refl items)
  | .not tag operand => .not tag (Pruned.refl operand)
  | .binary tag op left right => .binary tag op (Pruned.refl left) (Pruned.refl right)
  | .group tag inner => .group tag (Pruned.refl inner)

private theorem PrunedAll.refl : ∀ es : List Expr, PrunedAll es es
  | [] => .nil
  | e :: rest => .cons (Pruned.refl e) (PrunedAll.refl rest)

end

private theorem Pruned.literalOr {e e' : Expr} (h : Pruned e e') (value : Option Value) :
    Pruned e (Expr.literalOr e.tag value e') := by
  cases value with
  | none => exact h
  | some value => exact .literal e value

mutual

private theorem pruned_fold (c : FoldContext) : ∀ e : Expr, Pruned e (e.fold c)
  | .ident tag name => (Pruned.ident tag name).literalOr _
  | .literal _ _ => .refl _
  | .call tag callee args => (Pruned.call tag callee (prunedAll_foldAll c args)).literalOr _
  | .cast tag target operand => (Pruned.cast tag target (pruned_fold c operand)).literalOr _
  | .list tag items => .list tag (prunedAll_foldAll c items)
  | .not tag operand => (Pruned.not tag (pruned_fold c operand)).literalOr _
  | .binary tag op left right =>
    (Pruned.binary tag op (pruned_fold c left) (pruned_fold c right)).literalOr _
  | .group tag inner => (Pruned.group tag (pruned_fold c inner)).literalOr _

/-- Folding prunes expressions. -/
theorem prunedAll_foldAll (c : FoldContext) : ∀ es : List Expr, PrunedAll es (foldAll c es)
  | [] => .nil
  | e :: rest => .cons (pruned_fold c e) (prunedAll_foldAll c rest)

end

mutual

private theorem Pruned.ids_sublist : ∀ {e e' : Expr}, Pruned e e' → e'.ids.Sublist e.ids
  | _, _, .literal e value => singleton_sublist.mpr e.id_mem_ids
  | _, _, .ident _ _ => .refl _
  | _, _, .call _ _ h => (PrunedAll.ids_sublist h).cons_cons _
  | _, _, .cast _ _ h | _, _, .not _ h | _, _, .group _ h => (Pruned.ids_sublist h).cons_cons _
  | _, _, .list _ h => (PrunedAll.ids_sublist h).cons_cons _
  | _, _, .binary _ _ hleft hright =>
    ((Pruned.ids_sublist hleft).append (Pruned.ids_sublist hright)).cons_cons _

private theorem PrunedAll.ids_sublist :
    ∀ {es es' : List Expr}, PrunedAll es es' → (idsAll es').Sublist (idsAll es)
  | _, _, .nil => .refl _
  | _, _, .cons h hrest => (Pruned.ids_sublist h).append (PrunedAll.ids_sublist hrest)

end

private theorem Pruned.id_eq {e e' : Expr} (h : Pruned e e') : e'.id = e.id := by
  cases h <;> rfl

/-- What is recorded for the roots of expressions is what is recorded for what they become. -/
theorem PrunedAll.mapM_recorded {types : TypeTable} {es es' : List Expr} (h : PrunedAll es es') :
    es'.mapM (fun e => types.get? e.id) = es.mapM fun e => types.get? e.id := by
  induction es generalizing es' with
  | nil =>
    cases h
    rfl
  | cons e rest ih =>
    cases h with | cons hfirst hrest =>
    rw [mapM_cons, mapM_cons, ih hrest, hfirst.id_eq]

variable {P : Span → Prop}

mutual

private theorem Pruned.placed : ∀ {e e' : Expr}, Pruned e e' → e.Placed P → e'.Placed P
  | _, _, .literal _ _, he => he.span
  | _, _, .ident _ _, he => he
  | _, _, .call _ _ h, he => ⟨he.1, PrunedAll.placedAll h he.2⟩
  | _, _, .cast _ _ h, he | _, _, .not _ h, he | _, _, .group _ h, he =>
    ⟨he.1, Pruned.placed h he.2⟩
  | _, _, .list _ h, he => ⟨he.1, PrunedAll.placedAll h he.2⟩
  | _, _, .binary _ _ hleft hright, he =>
    ⟨he.1, Pruned.placed hleft he.2.1, Pruned.placed hright he.2.2⟩

private theorem PrunedAll.placedAll :
    ∀ {es es' : List Expr}, PrunedAll es es' → PlacedAll P es → PlacedAll P es'
  | _, _, .nil, hes => hes
  | _, _, .cons h hrest, hes => ⟨Pruned.placed h hes.1, PrunedAll.placedAll hrest hes.2⟩

end

end Expr

/-- Whether the header of a loop becomes another one by pruning its expression. -/
inductive LoopKind.Pruned : LoopKind → LoopKind → Prop
  | forever : Pruned .forever .forever
  | times {count count' : Expr} (h : count.Pruned count') : Pruned (.times count) (.times count')
  | until {condition condition' : Expr} (h : condition.Pruned condition') :
    Pruned (.until condition) (.until condition')

namespace Stmt

mutual

/-- Whether a statement becomes another one by pruning its expressions. -/
inductive Pruned : Stmt → Stmt → Prop
  | varDecl (name : String) (type : Option DataType) {value value' : Option Expr}
      (h : Option.Rel Expr.Pruned value value') (hoisted : Bool) (span : Span) :
    Pruned (.varDecl name type value hoisted span) (.varDecl name type value' hoisted span)
  | constDecl (name : String) (type : Option DataType) {value value' : Expr}
      (h : value.Pruned value')
      (span : Span) : Pruned (.constDecl name type value span) (.constDecl name type value' span)
  | funcDecl (name : String) (params : List Parameter) {body body' : List Stmt}
      (h : PrunedAll body body') (span : Span) (endLine : Nat) :
    Pruned (.funcDecl name params body span endLine) (.funcDecl name params body' span endLine)
  | event (kind : EventKind) (name : String) {param param' : Option Expr} {body body' : List Stmt}
      (hparam : Option.Rel Expr.Pruned param param') (h : PrunedAll body body') (span : Span)
      (endLine : Nat) :
    Pruned (.event kind name param body span endLine) (.event kind name param' body' span endLine)
  | call (name : String) {args args' : List Expr} (h : Expr.PrunedAll args args') (span : Span) :
    Pruned (.call name args span) (.call name args' span)
  | assign (target : String) (op : AssignOp) {value value' : Expr} (h : value.Pruned value')
      (span : Span) : Pruned (.assign target op value span) (.assign target op value' span)
  | branch {condition condition' : Expr} {thenBody thenBody' elseBody elseBody' : List Stmt}
      (h : condition.Pruned condition') (hthen : PrunedAll thenBody thenBody')
      (helse : PrunedAll elseBody elseBody') (span : Span) :
    Pruned (.branch condition thenBody elseBody span) (.branch condition' thenBody' elseBody' span)
  | loop {kind kind' : LoopKind} {body body' : List Stmt} (hkind : kind.Pruned kind')
      (h : PrunedAll body body') (span : Span) :
      Pruned (.loop kind body span) (.loop kind' body' span)

/-- Whether several statements become others one by one. -/
inductive PrunedAll : List Stmt → List Stmt → Prop
  | nil : PrunedAll [] []
  | cons {stmt stmt' : Stmt} {rest rest' : List Stmt} (h : Pruned stmt stmt')
      (hrest : PrunedAll rest rest') : PrunedAll (stmt :: rest) (stmt' :: rest')

end

private theorem idsOf?_sublist_of_rel {e e' : Option Expr} (h : Option.Rel Expr.Pruned e e') :
    (Expr.idsOf? e').Sublist (Expr.idsOf? e) := by
  cases h with
  | none => exact .refl _
  | some h => simpa [Expr.idsOf?] using h.ids_sublist

private theorem ids_sublist_of_loopKind {kind kind' : LoopKind} (h : kind.Pruned kind') :
    kind'.ids.Sublist kind.ids := by
  cases h with
  | forever => exact .refl _
  | times h => exact h.ids_sublist
  | «until» h => exact h.ids_sublist

mutual

private theorem Pruned.ids_sublist :
    ∀ {stmt stmt' : Stmt}, Pruned stmt stmt' → stmt'.ids.Sublist stmt.ids
  | _, _, .varDecl _ _ h _ _ => idsOf?_sublist_of_rel h
  | _, _, .constDecl _ _ h _ => h.ids_sublist
  | _, _, .funcDecl _ _ h _ _ => PrunedAll.ids_sublist h
  | _, _, .event _ _ hparam h _ _ => (idsOf?_sublist_of_rel hparam).append (PrunedAll.ids_sublist h)
  | _, _, .call _ h _ => h.ids_sublist
  | _, _, .assign _ _ h _ => h.ids_sublist
  | _, _, .branch h hthen helse _ =>
    h.ids_sublist.append ((PrunedAll.ids_sublist hthen).append (PrunedAll.ids_sublist helse))
  | _, _, .loop hkind h _ => (ids_sublist_of_loopKind hkind).append (PrunedAll.ids_sublist h)

/-- Numbers stay in order. -/
theorem PrunedAll.ids_sublist : ∀ {stmts stmts' : List Stmt}, PrunedAll stmts stmts' →
    (idsAll stmts').Sublist (idsAll stmts)
  | _, _, .nil => .refl _
  | _, _, .cons h hrest => (Pruned.ids_sublist h).append (PrunedAll.ids_sublist hrest)

end

end Stmt

/-! ### Findings -/

/-- Whether all findings are errors at places with a property. -/
def FoundAt (P : Span → Prop) (findings : List Finding) : Prop :=
  ∀ f ∈ findings, f.diagnostic.isError = true ∧ P f.diagnostic.span

section FoundAt

variable {P : Span → Prop} (c : FoldContext)

private theorem foundAt_nil : FoundAt P [] := forall_mem_nil _

private theorem foundAt_always {span : Span} (h : P span) (fault : AnalysisFault) :
    FoundAt P [.always fault span] :=
  forall_mem_singleton.mpr ⟨rfl, h⟩

private theorem foundAt_append {first more : List Finding} (hfirst : FoundAt P first)
    (hmore : FoundAt P more) : FoundAt P (first ++ more) :=
  forall_mem_append.mpr ⟨hfirst, hmore⟩

private theorem foundAt_optionFindings (callee : String) (spec : ParamSpec)
    (h : P arg.span) : FoundAt P (c.optionFindings callee spec arg) := by
  intro f hf
  obtain ⟨d, hd, rfl⟩ := mem_map.mp hf
  obtain ⟨fault, rfl⟩ := Analyzer.Closed.exists_of_optionFault? (Option.mem_toList.mp hd)
  exact ⟨rfl, h⟩

private theorem foundAt_argumentFindings (callee : String) (spec : ParamSpec)
    (h : P arg.span) : FoundAt P (c.argumentFindings callee spec arg) := by
  unfold FoldContext.argumentFindings
  split
  · exact foundAt_always h _
  · exact foundAt_optionFindings c callee spec h

private theorem foundAt_callFindings (table : Table String Builtin) (name : String)
    {args : List Expr} (h : Expr.PlacedAll P args) :
    FoundAt P (c.callFindings table name args) := by
  unfold FoldContext.callFindings
  split
  · intro f hf
    obtain ⟨p, hp, hf⟩ := mem_flatMap.mp hf
    have harg : p.2.Placed P := Expr.taggedAll_iff.mp h p.2 (of_mem_zip hp).2
    exact foundAt_argumentFindings c name p.1 harg.span f hf
  · exact foundAt_nil

private theorem foundAt_castFindings (target : DataType) {operand : Expr} (h : P operand.span) :
    FoundAt P (c.castFindings target operand) := by
  unfold FoldContext.castFindings
  split
  · split
    · exact foundAt_always h _
    · exact foundAt_nil
  · split
    · exact foundAt_nil
    · exact foundAt_always h _

private theorem foundAt_binaryFindings (op : BinaryOp) (right : Expr) {span : Span} (h : P span) :
    FoundAt P (FoldContext.binaryFindings op right span) := by
  unfold FoldContext.binaryFindings
  split
  · split
    · exact foundAt_always h _
    · exact foundAt_nil
  · exact foundAt_nil

mutual

private theorem foundAt_findings (c : FoldContext) :
    ∀ {e : Expr}, e.Placed P → FoundAt P (e.findings c)
  | .ident _ _, _ | .literal _ _, _ => foundAt_nil
  | .call _ callee args, h =>
    foundAt_append (foundAt_findingsAll c h.2)
      (foundAt_callFindings c _ callee ((Expr.prunedAll_foldAll c args).placedAll h.2))
  | .cast _ target operand, h =>
    foundAt_append (foundAt_findings c h.2)
      (foundAt_castFindings c target ((Expr.pruned_fold c operand).placed h.2).span)
  | .list _ _, h => foundAt_findingsAll c h.2
  | .not _ operand, h => foundAt_findings c (e := operand) h.2
  | .binary _ op _ right, h =>
    foundAt_append (foundAt_append (foundAt_findings c h.2.1) (foundAt_findings c h.2.2))
      (foundAt_binaryFindings op (right.fold c) h.1)
  | .group _ inner, h => foundAt_findings c (e := inner) h.2

private theorem foundAt_findingsAll (c : FoldContext) : ∀ {es : List Expr}, Expr.PlacedAll P es →
    FoundAt P (Expr.findingsAll c es)
  | [], _ => foundAt_nil
  | _ :: _, h => foundAt_append (foundAt_findings c h.1) (foundAt_findingsAll c h.2)

end

private theorem foundAt_itemFindings {items : List Expr} (h : Expr.PlacedAll P items) :
    FoundAt P (Folder.itemFindings items) := by
  intro f hf
  obtain ⟨item, hitem, rfl⟩ := mem_map.mp hf
  exact ⟨rfl, (Expr.taggedAll_iff.mp h item (mem_of_mem_filter hitem)).span⟩

private theorem foundAt_eventFindings (kind : EventKind) (name : String) {param : Expr}
    (h : P param.span) : FoundAt P (Folder.eventFindings c kind name param) := by
  unfold Folder.eventFindings
  split
  · exact foundAt_always h _
  · split
    · exact foundAt_nil
    · split
      · exact foundAt_optionFindings c _ _ h
      · exact foundAt_nil

private theorem foundAt_statementFindings (name : String) {args : List Expr}
    (h : Expr.PlacedAll P args) : FoundAt P (Folder.statementFindings c name args) := by
  unfold Folder.statementFindings
  split
  · exact foundAt_nil
  · exact foundAt_callFindings c _ name h

end FoundAt

end

/-!
## Runs

Folding a program does not change what is declared. It only takes nodes away from the program, and
what it finds are errors at places of the program. They are added to the errors that were found
before.
-/

variable {findings : List Finding} {middle : List Stmt} {value : Expr}

open List

namespace Definitions

variable (d : Definitions)

/-- The known value of a constant. -/
def value? (name : String) : Option Value := (d.constants.get? name).bind (·.value)

end Definitions

namespace Finding

private theorem addTo_reports (errors : List Diagnostic) (finding : Finding) :
    ∃ more, finding.addTo errors = errors ++ more ∧ ∀ d ∈ more, d = finding.diagnostic := by
  unfold addTo
  dsimp only
  split
  · exact ⟨[], by simp, by simp⟩
  · exact ⟨[finding.diagnostic], rfl, by simp⟩

private theorem foldl_addTo_reports (findings : List Finding) (errors : List Diagnostic) :
    ∃ more, findings.foldl addTo errors = errors ++ more ∧
      ∀ d ∈ more, ∃ finding ∈ findings, d = finding.diagnostic := by
  induction findings generalizing errors with
  | nil => exact ⟨[], by simp, by simp⟩
  | cons finding rest ih =>
    obtain ⟨first, hfirst, hmem⟩ := addTo_reports errors finding
    obtain ⟨more, hmore, hmem'⟩ := ih (finding.addTo errors)
    refine ⟨first ++ more, by rw [foldl_cons, hmore, hfirst, append_assoc], ?_⟩
    intro d hd
    rcases mem_append.mp hd with hd | hd
    · exact ⟨finding, mem_cons_self, hmem d hd⟩
    · obtain ⟨other, hother, heq⟩ := hmem' d hd
      exact ⟨other, mem_cons_of_mem _ hother, heq⟩

/-- Where there are no errors after findings have been added, there were no findings. -/
theorem eq_nil_of_foldl_addTo {errors : List Diagnostic}
    (h : findings.foldl addTo errors = []) : findings = [] := by
  cases findings with
  | nil => rfl
  | cons finding rest =>
    obtain ⟨more, hmore, _⟩ := foldl_addTo_reports rest (finding.addTo errors)
    rw [foldl_cons, hmore] at h
    have hfirst := (append_eq_nil_iff.mp h).1
    unfold addTo at hfirst
    dsimp only at hfirst
    split at hfirst
    · rename_i hany
      simp [hfirst] at hany
    · simp at hfirst

end Finding

/-- Whether diagnostics are errors at places with a property. -/
def ErrorsAt (P : Span → Prop) (errors : List Diagnostic) : Prop :=
  ∀ d ∈ errors, d.isError = true ∧ P d.span

namespace Folder

variable {P Q : Span → Prop} {N : String → Prop} {W : Prop} {α β : Type} {R : α → Prop}
  {S : β → Prop} {f : α → Folder β} {items : List Stmt} (c : FoldContext)

/-- Whether a step of folding declares nothing, records errors at places with a property only, and
makes such results. -/
def Prunes (P : Span → Prop) (R : α → Prop) (x : Folder α) : Prop :=
  ∀ s, ErrorsAt P s.errors →
    Gives x s fun a s' => R a ∧ ErrorsAt P s'.errors ∧ s'.defs.bare = s.defs.bare

private theorem Prunes.pure {a : α} (h : R a) :
    Prunes P R (pure a : Folder α) := fun _ hs => ⟨h, hs, rfl⟩

private theorem Prunes.bind {x : Folder α} (hx : Prunes P R x)
    (hf : ∀ a, R a → Prunes P S (f a)) : Prunes P S (x >>= f) := by
  intro s hs
  rw [gives_bind]
  refine (hx s hs).mono fun a s' h => (hf a h.1 s' h.2.1).mono fun b s'' h' => ?_
  exact ⟨h'.1, h'.2.1, h'.2.2.trans h.2.2⟩

private theorem Prunes.mapM {rel : α → β → Prop} {l : List α}
    (hf : ∀ a ∈ l, Prunes P (rel a) (f a)) : Prunes P (List.Forall₂ rel l) (l.mapM f) := by
  induction l with
  | nil => exact .pure .nil
  | cons a rest ih =>
    rw [forall_mem_cons] at hf
    rw [mapM_cons]
    exact hf.1.bind fun b hb => (ih hf.2).bind fun more hmore => .pure (.cons hb hmore)

private theorem prunes_context : Prunes P (fun _ => True) (context c) :=
  fun _ hs => ⟨trivial, hs, rfl⟩

private theorem prunes_define {change : Definitions → Definitions}
    (h : ∀ d, (change d).bare = d.bare) : Prunes P (fun _ => True) (define change) :=
  fun s hs => ⟨trivial, hs, h s.defs⟩

private theorem prunes_setParams (params : List String) :
    Prunes P (fun _ => True) (setParams params) :=
  fun _ hs => ⟨trivial, hs, rfl⟩

private theorem prunes_record (h : FoundAt P findings) :
    Prunes P (fun _ => True) (record findings) := by
  intro s hs
  obtain ⟨more, hmore, hmem⟩ := Finding.foldl_addTo_reports findings s.errors
  have hplaced : ErrorsAt P (findings.foldl Finding.addTo s.errors) := by
    rw [hmore]
    refine forall_mem_append.mpr ⟨hs, fun d hd => ?_⟩
    obtain ⟨finding, hfinding, rfl⟩ := hmem d hd
    exact h finding hfinding
  exact ⟨trivial, hplaced, rfl⟩

private theorem prunes_expr {e : Expr} (h : e.Placed P) : Prunes P e.Pruned (expr c e) := by
  refine (prunes_context c).bind fun c _ => (prunes_record (foundAt_findings c h)).bind fun _ _ =>
    ?_
  exact .pure (e.pruned_fold c)

private theorem prunes_exprs {es : List Expr} (h : Expr.PlacedAll P es) :
    Prunes P (Expr.PrunedAll es) (exprs c es) := by
  refine (prunes_context c).bind fun c _ =>
    (prunes_record (foundAt_findingsAll c h)).bind fun _ _ => ?_
  exact .pure (Expr.prunedAll_foldAll c es)

private theorem prunes_initializer (name : String) (h : value.Placed P) :
    Prunes P value.Pruned (initializer c name value) := by
  refine (prunes_expr c h).bind fun out hout => ?_
  dsimp only
  split
  · rename_i items hitems
    refine (prunes_record (foundAt_itemFindings ((hout.placed h).items hitems))).bind fun _ _ => ?_
    exact (prunes_define fun d => d.bare_setItems _ _).bind fun _ _ => .pure hout
  · exact .pure hout

private theorem prunes_constantValue (name : String) (h : value.Placed P) :
    Prunes P value.Pruned (constantValue c name value) := by
  refine (prunes_expr c h).bind fun out hout => ?_
  dsimp only
  split
  · exact (prunes_define fun d => d.bare_setConstant _ _).bind fun _ _ => .pure hout
  · exact (prunes_record (foundAt_always (hout.placed h).span _)).bind fun _ _ => .pure hout

private theorem prunes_eventParameter (kind : EventKind) (name : String) {param : Expr}
    (h : param.Placed P) : Prunes P param.Pruned (eventParameter c kind name param) := by
  refine (prunes_expr c h).bind fun out hout => (prunes_context c).bind fun c _ => ?_
  refine (prunes_record (foundAt_eventFindings c kind name (hout.placed h).span)).bind fun _ _ => ?_
  exact .pure hout

private theorem prunes_option {f : Expr → Folder Expr} {e : Option Expr}
    (hf : ∀ a ∈ e, Prunes P a.Pruned (f a)) : Prunes P (Option.Rel Expr.Pruned e) (e.mapM f) := by
  cases e with
  | none => exact fun _ hs => ⟨.none, hs, rfl⟩
  | some e =>
    intro s hs
    rw [gives_mapM_some]
    exact (hf e rfl s hs).mono fun out _ h => ⟨.some h.1, h.2⟩

private theorem prunes_loopHeader {kind : LoopKind} (h : kind.Tagged fun tag => P tag.span) :
    Prunes P kind.Pruned (loopHeader c kind) := by
  cases kind with
  | forever => exact .pure .forever
  | times count => exact (prunes_expr c h).bind fun out hout => .pure (.times hout)
  | «until» condition => exact (prunes_expr c h).bind fun out hout => .pure (.until hout)

mutual

private theorem prunes_statement (c : FoldContext) :
    ∀ {stmt : Stmt}, stmt.Of ⟨fun tag => P tag.span, Q, N, W⟩ →
      Prunes P stmt.Pruned (statement c stmt)
  | .varDecl name type value hoisted span, h => by
    rw [statement]
    have hvalue := prunes_option fun e he => prunes_initializer c name (h.2.1 e he)
    exact hvalue.bind fun out hout => .pure (.varDecl name type hout hoisted span)
  | .constDecl name type value span, h => by
    rw [statement]
    exact (prunes_constantValue c name h.2.1).bind fun out hout =>
      .pure (.constDecl name type hout span)
  | .funcDecl name params body span endLine, h => by
    rw [statement]
    refine (prunes_setParams _).bind fun _ _ => (prunes_statements c h.2.2).bind fun out hout => ?_
    exact (prunes_setParams _).bind fun _ _ => .pure (.funcDecl name params hout span endLine)
  | .event kind name param body span endLine, h => by
    rw [statement]
    have hparam := prunes_option fun e he => prunes_eventParameter c kind name (h.2.1 e he)
    refine hparam.bind fun param' hparam' => (prunes_statements c h.2.2.1).bind fun out hout => ?_
    exact .pure (.event kind name hparam' hout span endLine)
  | .call name args span, h => by
    rw [statement]
    refine (prunes_exprs c h.2).bind fun out hout => (prunes_context c).bind fun c _ => ?_
    refine (prunes_record (foundAt_statementFindings c name (hout.placedAll h.2))).bind fun _ _ =>
      ?_
    exact .pure (.call name hout span)
  | .assign target op value span, h => by
    rw [statement]
    exact (prunes_expr c h.2).bind fun out hout => .pure (.assign target op hout span)
  | .branch condition thenBody elseBody span, h => by
    rw [statement]
    refine (prunes_expr c h.2.1).bind fun condition' hcond => ?_
    refine (prunes_statements c h.2.2.1).bind fun thenOut hthen => ?_
    exact (prunes_statements c h.2.2.2).bind fun elseOut helse =>
      .pure (.branch hcond hthen helse span)
  | .loop kind body span, h => by
    rw [statement]
    refine (prunes_loopHeader c h.2.1).bind fun kind' hkind => ?_
    exact (prunes_statements c h.2.2).bind fun out hout => .pure (.loop hkind hout span)

private theorem prunes_statements (c : FoldContext) :
    ∀ {stmts : List Stmt}, Stmt.AllOf ⟨fun tag => P tag.span, Q, N, W⟩ stmts →
      Prunes P (Stmt.PrunedAll stmts) (statements c stmts)
  | [], _ => by
    rw [statements]
    exact .pure .nil
  | stmt :: rest, h => by
    rw [statements]
    refine (prunes_statement c h.1).bind fun out hout => ?_
    exact (prunes_statements c h.2).bind fun more hmore => .pure (.cons hout hmore)

end

/-- What the first pass over the items makes of an item: only constants are pruned. -/
def FirstPass (item out : Stmt) : Prop :=
  if item.isConstant then item.Pruned out ∧ out.isConstant else out = item

/-- What the second pass over the items makes of an item: constants are left as they are. -/
def SecondPass (item out : Stmt) : Prop := if item.isConstant then out = item else item.Pruned out

private theorem prunes_constantItem {item : Stmt} (h : item.Of ⟨fun tag => P tag.span, Q, N, W⟩) :
    Prunes P (FirstPass item) (constantItem c item) := by
  cases item with
  | constDecl name type value span =>
    refine (prunes_constantValue c name h.2.1).bind fun out hout => .pure ?_
    exact ⟨.constDecl name type hout span, rfl⟩
  | varDecl | funcDecl | event | call | assign | branch | loop => exact .pure rfl

private theorem prunes_otherItem {item : Stmt}
    (h : item.isConstant = false → item.Of ⟨fun tag => P tag.span, Q, N, W⟩) :
    Prunes P (SecondPass item) (otherItem c item) := by
  cases item with
  | constDecl name type value span => exact .pure rfl
  | varDecl | funcDecl | event | call | assign | branch | loop => exact prunes_statement c (h rfl)

private theorem placed_of_firstPass (hfirst : List.Forall₂ FirstPass items middle)
    (h : ∀ item ∈ items, item.Of ⟨fun tag => P tag.span, Q, N, W⟩) :
    ∀ item ∈ middle, item.isConstant = false → item.Of ⟨fun tag => P tag.span, Q, N, W⟩ := by
  induction hfirst with
  | nil => exact forall_mem_nil _
  | @cons item out _ _ hitem _ ih =>
    rw [forall_mem_cons] at h
    refine forall_mem_cons.mpr ⟨fun hother => ?_, ih h.2⟩
    unfold FirstPass at hitem
    split at hitem
    · rw [hitem.2] at hother
      cases hother
    · exact hitem ▸ h.1

private theorem prunedAll_of_passes {out : List Stmt} (hfirst : List.Forall₂ FirstPass items middle)
    (hsnd : List.Forall₂ SecondPass middle out) : Stmt.PrunedAll items out := by
  induction hfirst generalizing out with
  | nil =>
    cases hsnd
    exact .nil
  | cons hitem _ ih =>
    obtain - | ⟨hother, hrest⟩ := hsnd
    refine .cons ?_ (ih hrest)
    unfold FirstPass at hitem
    unfold SecondPass at hother
    split at hitem
    · rw [if_pos hitem.2] at hother
      exact hother ▸ hitem.1
    · rename_i hconst
      rw [hitem, if_neg hconst] at hother
      exact hother

private theorem prunes_program (h : Stmt.AllOf ⟨fun tag => P tag.span, Q, N, W⟩ items) :
    Prunes P (Stmt.PrunedAll items) (program c items) := by
  have hitems := Stmt.allOf_iff.mp h
  have hfirst : Prunes P (List.Forall₂ FirstPass items) (items.mapM (constantItem c)) :=
    .mapM fun item hitem => prunes_constantItem c (hitems item hitem)
  refine hfirst.bind fun middle hmiddle s hs => ?_
  have hkept := placed_of_firstPass hmiddle hitems
  have hsnd : Prunes P (List.Forall₂ SecondPass middle) (middle.mapM (otherItem c)) :=
    .mapM fun item hmem => prunes_otherItem c (hkept item hmem)
  exact (hsnd s hs).mono fun out s' hout => ⟨prunedAll_of_passes hmiddle hout.1, hout.2⟩

end Folder

/-- Folding a program prunes its expressions, finds errors where they stand, and declares
nothing. -/
theorem Program.prunedAll_fold {P Q : Span → Prop} {N : String → Prop} {W : Prop}
    {catalog : Catalog} {types : TypeTable} {pictures : Pictures} {defs : Definitions}
    {program : Program} (h : Stmt.AllOf ⟨fun tag => P tag.span, Q, N, W⟩ program.statements) :
    Stmt.PrunedAll program.statements
    (program.fold catalog types pictures defs).program.statements ∧
      ErrorsAt P (program.fold catalog types pictures defs).errors ∧
      (program.fold catalog types pictures defs).defs.bare = defs.bare :=
  Folder.prunes_program { catalog, types, pictures, defs } h { defs } (forall_mem_nil _)

/-- Folding declares nothing. -/
theorem Program.bare_fold (catalog : Catalog) (types : TypeTable) (pictures : Pictures)
    (defs : Definitions) (program : Program) :
    (program.fold catalog types pictures defs).defs.bare = defs.bare :=
  (prunedAll_fold (P := fun _ => True) (Stmt.allOf_true program.statements)).2.2

end BlockScript
