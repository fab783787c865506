import BlockScript.Proofs.AcceptedProgram

/-!
# Folded programs

A folded program has the statements of the program it comes from, and each of its expressions is a
folded form of the one in its place. What folding knows at that point is said by a property of
definitions, which may speak of the constants that have been passed. If every declaration keeps the
property, then it holds at every expression, and a run of folding without errors leads from a
program to its folded form.
-/

namespace BlockScript

open List
open Stmt (isConstant isOther constantsAll)

variable {passed : List String} {items : List Stmt} {s : FoldState}
  {inv : List String → Definitions → Prop}

/-- What folding looks up with some definitions, between parameters with some names. -/
def FoldContext.within (c : FoldContext) (d : Definitions) (params : List String) : FoldContext :=
  { c with defs := d, params }

section Relations

variable (c : FoldContext) (inv : List String → Definitions → Prop)

/-- Whether folding makes one expression of another and finds nothing in it. -/
def Expr.FoldsTo (params passed : List String) (e out : Expr) : Prop :=
  ∃ d, inv passed d ∧ out = e.fold (c.within d params) ∧ e.findings (c.within d params) = []

/-- Whether folding makes one initializer of another; the items of a list have values. -/
def Expr.InitializesTo (params passed : List String) (e out : Expr) : Prop :=
  e.FoldsTo c inv params passed out ∧
    ∀ items, out.items? = some items → ∀ item ∈ items, item.value? ≠ none

/-- Whether folding makes one parameter of a handler of another and finds nothing in it. -/
def Expr.HandlesTo (params passed : List String) (kind : EventKind) (name : String) (e out : Expr) :
    Prop :=
  ∃ d, inv passed d ∧ out = e.fold (c.within d params) ∧ e.findings (c.within d params) = [] ∧
    Folder.eventFindings (c.within d params) kind name out = []

/-- Whether folding makes one header of a loop of another. -/
def LoopKind.FoldsTo (params passed : List String) : LoopKind → LoopKind → Prop
  | .forever, out => out = .forever
  | .times e, out => ∃ e', out = .times e' ∧ e.FoldsTo c inv params passed e'
  | .until e, out => ∃ e', out = .until e' ∧ e.FoldsTo c inv params passed e'

mutual

/-- Whether folding makes one statement of another, where some constants have been passed. -/
def Stmt.FoldsTo (params passed : List String) : Stmt → Stmt → Prop
  | .varDecl name type value hoisted span, out => ∃ value',
      out = .varDecl name type value' hoisted span ∧
      Option.Rel (Expr.InitializesTo c inv params passed) value value'
  | .constDecl name type value span, out => ∃ value', out = .constDecl name type value' span ∧
      value.FoldsTo c inv params passed value' ∧ value'.value? ≠ none
  | .funcDecl name fields body span endLine, out => ∃ body',
      out = .funcDecl name fields body' span endLine ∧
      FoldsAll (fields.map (·.name)) passed body body'
  | .event kind name param body span endLine, out => ∃ param' body',
      out = .event kind name param' body' span endLine ∧
      Option.Rel (Expr.HandlesTo c inv params passed kind name) param param' ∧
      FoldsAll params passed body body'
  | .call name args span, out => ∃ d, inv passed d ∧
      out = .call name (Expr.foldAll (c.within d params) args) span ∧
      Expr.findingsAll (c.within d params) args = [] ∧
      Folder.statementFindings (c.within d params) name (Expr.foldAll (c.within d params) args) = []
  | .assign target op value span, out => ∃ value', out = .assign target op value' span ∧
      value.FoldsTo c inv params passed value'
  | .branch condition thenBody elseBody span, out => ∃ condition' thenBody' elseBody',
      out = .branch condition' thenBody' elseBody' span ∧
      condition.FoldsTo c inv params passed condition' ∧ FoldsAll params passed thenBody thenBody' ∧
      FoldsAll params (passed ++ constantsAll thenBody) elseBody elseBody'
  | .loop kind body span, out => ∃ kind' body', out = .loop kind' body' span ∧
      kind.FoldsTo c inv params passed kind' ∧ FoldsAll params passed body body'

/-- Whether folding makes some statements of others. -/
def Stmt.FoldsAll (params passed : List String) : List Stmt → List Stmt → Prop
  | [], out => out = []
  | stmt :: rest, out => ∃ first more, out = first :: more ∧ FoldsTo params passed stmt first ∧
      FoldsAll params (passed ++ stmt.constants) rest more

end

mutual

/-- Whether a property of definitions holds after a statement has been folded if it holds before. -/
def Stmt.Keeps (params passed : List String) : Stmt → Prop
  | .varDecl name _ _ _ _ => ∀ d items, inv passed d → inv passed (d.setItems name items)
  | .constDecl name _ value _ => ∀ d v, inv passed d → value.findings (c.within d params) = [] →
      (value.fold (c.within d params)).value? = some v → inv (passed ++ [name])
      (d.setConstant name v)
  | .funcDecl _ fields body _ _ => params = [] ∧ KeepsAll (fields.map (·.name)) passed body
  | .event _ _ _ body _ _ => KeepsAll params passed body
  | .branch _ thenBody elseBody _ => KeepsAll params passed thenBody ∧
      KeepsAll params (passed ++ constantsAll thenBody) elseBody
  | .loop _ body _ => KeepsAll params passed body
  | .call .. | .assign .. => True

/-- Whether a property of definitions holds throughout some statements. -/
def Stmt.KeepsAll (params passed : List String) : List Stmt → Prop
  | [] => True
  | stmt :: rest => Keeps params passed stmt ∧ KeepsAll params (passed ++ stmt.constants) rest

end

end Relations

/-- Whether folding makes the items of one program of those of another: first the constants of the
outermost level, then all else. -/
structure Stmt.ItemsFold (c : FoldContext) (inv : List String → Definitions → Prop)
    (items out : List Stmt) : Prop where
  constants : FoldsAll c inv [] [] (items.filter isConstant) (out.filter isConstant)
  others : FoldsAll c inv [] (constantsAll (items.filter isConstant)) (items.filter isOther)
    (out.filter isOther)
  places : out.map isConstant = items.map isConstant

private theorem Stmt.FoldsTo.isConstant_eq {c : FoldContext} {params : List String}
    {stmt out : Stmt} (h : stmt.FoldsTo c inv params passed out) :
    out.isConstant = stmt.isConstant := by
  cases stmt with
  | varDecl | constDecl | funcDecl | assign =>
    obtain ⟨_, rfl, _⟩ := h
    rfl
  | event | loop =>
    obtain ⟨_, _, rfl, _⟩ := h
    rfl
  | call =>
    obtain ⟨_, _, rfl, _⟩ := h
    rfl
  | branch =>
    obtain ⟨_, _, _, rfl, _⟩ := h
    rfl

/-- What folding looks up in a state. -/
def FoldContext.during (c : FoldContext) (s : FoldState) : FoldContext := c.within s.defs s.params

namespace Folder

variable {α β : Type} {pre : FoldState → Prop} {post : α → FoldState → Prop} {c : FoldContext}

/-- Whether a step of folding that leaves no error begins without one, and leads from states with
one property to states with another. -/
def Leads (pre : FoldState → Prop) (post : α → FoldState → Prop) (x : Folder α) : Prop :=
  ∀ s, Gives x s fun a s' => s'.errors = [] → s.errors = [] ∧ (pre s → post a s')

namespace Leads

private theorem pure {a : α} (h : ∀ s, pre s → post a s) : Leads pre post (pure a : Folder α) :=
  fun s hnil => ⟨hnil, h s⟩

variable {x : Folder α}

private theorem bind {f : α → Folder β} {after : β → FoldState → Prop} (hx : Leads pre post x)
    (hf : ∀ a, Leads (post a) after (f a)) : Leads pre after (x >>= f) := by
  intro s
  rw [gives_bind]
  refine (hx s).mono fun a s₁ hfirst => (hf a s₁).mono fun b s₂ hrest hnil => ?_
  obtain ⟨hnil₁, hafter⟩ := hrest hnil
  obtain ⟨hnil₀, hpost⟩ := hfirst hnil₁
  exact ⟨hnil₀, fun hpre => hafter (hpost hpre)⟩

private theorem mono {post' : α → FoldState → Prop} (hx : Leads pre post x)
    (h : ∀ a s, post a s → post' a s) : Leads pre post' x :=
  fun s => (hx s).mono fun a s' hfirst hnil =>
    ⟨(hfirst hnil).1, fun hpre => h a s' ((hfirst hnil).2 hpre)⟩

private theorem frame {p : Prop} (hx : Leads pre post x) :
    Leads (fun s => p ∧ pre s) (fun a s => p ∧ post a s) x :=
  fun s => (hx s).mono fun _ _ hfirst hnil => ⟨(hfirst hnil).1, fun h => ⟨h.1, (hfirst hnil).2 h.2⟩⟩

private theorem record (findings : List Finding) :
    Leads pre (fun _ s => findings = [] ∧ pre s) (record findings) := by
  intro s hnil
  cases Finding.eq_nil_of_foldl_addTo hnil
  exact ⟨hnil, fun h => ⟨rfl, h⟩⟩

private theorem context : Leads pre (fun found s => found = c.during s ∧ pre s) (context c) :=
  fun _ hnil => ⟨hnil, fun h => ⟨rfl, h⟩⟩

private theorem define {change : Definitions → Definitions} {after : FoldState → Prop}
    (h : ∀ s, pre s → after { s with defs := change s.defs }) :
    Leads pre (fun _ => after) (define change) :=
  fun s hnil => ⟨hnil, h s⟩

private theorem setParams {params : List String} {after : FoldState → Prop}
    (h : ∀ s, pre s → after { s with params }) : Leads pre (fun _ => after) (setParams params) :=
  fun s hnil => ⟨hnil, h s⟩

private theorem expr (e : Expr) :
    Leads pre (fun out s => (out = e.fold (c.during s) ∧ e.findings (c.during s) = []) ∧ pre s)
      (expr c e) := by
  refine context.bind fun _ => (record _).bind fun _ => .pure ?_
  rintro s ⟨hfindings, rfl, h⟩
  exact ⟨⟨rfl, hfindings⟩, h⟩

private theorem exprs (es : List Expr) :
    Leads pre (fun out s => (out = Expr.foldAll (c.during s) es ∧ Expr.findingsAll (c.during s) es =
      []) ∧ pre s) (exprs c es) := by
  refine context.bind fun _ => (record _).bind fun _ => .pure ?_
  rintro s ⟨hfindings, rfl, h⟩
  exact ⟨⟨rfl, hfindings⟩, h⟩

private theorem option {f : Expr → Folder Expr} {rel : Expr → Expr → Prop} {e : Option Expr}
    (hf : ∀ e, Leads pre (fun out s => rel e out ∧ pre s) (f e)) :
    Leads pre (fun out s => Option.Rel rel e out ∧ pre s) (e.mapM f) := by
  cases e with
  | none => exact .pure fun _ h => ⟨.none, h⟩
  | some e => exact (hf e).bind fun _ => .pure fun _ h => ⟨.some h.1, h.2⟩

end Leads

variable {inv : List String → Definitions → Prop} {params passed : List String}

/-- Whether folding is between parameters with some names and has passed some constants. -/
def At (inv : List String → Definitions → Prop) (params passed : List String) (s : FoldState) :
    Prop :=
  inv passed s.defs ∧ s.params = params

private theorem expr_folds (e : Expr) : Leads (At inv params passed)
    (fun out s => e.FoldsTo c inv params passed out ∧ At inv params passed s) (expr c e) := by
  refine (Leads.expr e).mono ?_
  rintro out s ⟨⟨rfl, hfindings⟩, hinv, rfl⟩
  exact ⟨⟨s.defs, hinv, rfl, hfindings⟩, hinv, rfl⟩

private theorem items_known {items : List Expr} (h : itemFindings items = []) :
    ∀ item ∈ items, item.value? ≠ none := by
  intro item hitem hnone
  have hfilter := map_eq_nil_iff.mp h
  exact filter_eq_nil_iff.mp hfilter item hitem (by simp [hnone])

private theorem initializer_folds {name : String}
    (hkeeps : ∀ d items, inv passed d → inv passed (d.setItems name items)) (value : Expr) :
    Leads (At inv params passed)
    (fun out s => value.InitializesTo c inv params passed out ∧ At inv params passed s)
      (initializer c name value) := by
  refine (expr_folds value).bind fun out => ?_
  dsimp only
  split
  · rename_i items hitems
    refine (Leads.record _).bind fun _ => (Leads.define ?_).bind fun _ => .pure fun _ h => h
    rintro s ⟨hfindings, hfolds, hinv, hparams⟩
    refine ⟨⟨hfolds, fun items' hitems' => ?_⟩, hkeeps _ _ hinv, hparams⟩
    cases hitems.symm.trans hitems'
    exact items_known hfindings
  · rename_i hnone
    exact .pure fun s h => ⟨⟨h.1, fun items hitems => (hnone items hitems).elim⟩, h.2⟩

private theorem constantValue_folds {name : String} {value : Expr}
    (hkeeps : ∀ d v, inv passed d → value.findings (c.within d params) = [] →
      (value.fold (c.within d params)).value? = some v → inv (passed ++ [name])
      (d.setConstant name v)) :
    Leads (At inv params passed)
        (fun out s => (value.FoldsTo c inv params passed out ∧ out.value? ≠ none) ∧
        At inv params (passed ++ [name]) s)
      (constantValue c name value) := by
  refine (Leads.expr value).bind fun out => ?_
  dsimp only
  split
  · rename_i known hknown
    refine (Leads.define ?_).bind fun _ => .pure fun _ h => h
    rintro s ⟨⟨rfl, hfindings⟩, hinv, rfl⟩
    exact ⟨⟨⟨s.defs, hinv, rfl, hfindings⟩, by simp [hknown]⟩,
      hkeeps s.defs known hinv hfindings hknown, rfl⟩
  · exact (Leads.record _).bind fun _ => .pure fun _ h => absurd h.1 (cons_ne_nil _ _)

private theorem eventParameter_folds (kind : EventKind) (name : String) (param : Expr) :
    Leads (At inv params passed) (fun out s => param.HandlesTo c inv params passed kind name out ∧
      At inv params passed s) (eventParameter c kind name param) := by
  refine (Leads.expr param).bind fun out => Leads.context.bind fun _ =>
    (Leads.record _).bind fun _ => .pure ?_
  rintro s ⟨hevent, rfl, ⟨rfl, hfindings⟩, hinv, rfl⟩
  exact ⟨⟨s.defs, hinv, rfl, hfindings, hevent⟩, hinv, rfl⟩

private theorem loopHeader_folds : ∀ kind : LoopKind, Leads (At inv params passed)
    (fun out s => kind.FoldsTo c inv params passed out ∧ At inv params passed s) (loopHeader c kind)
  | .forever => .pure fun _ h => ⟨rfl, h⟩
  | .times e | .until e => (expr_folds e).bind fun out => .pure fun _ h => ⟨⟨out, rfl, h.1⟩, h.2⟩

mutual

private theorem statement_folds :
    ∀ (stmt : Stmt) {params passed : List String}, stmt.Keeps c inv params passed →
      Leads (At inv params passed) (fun out s => stmt.FoldsTo c inv params passed out ∧
      At inv params (passed ++ stmt.constants) s) (statement c stmt)
  | .varDecl name type value hoisted span, params, passed, hkeeps => by
    rw [statement, show passed ++ Stmt.constants (.varDecl name type value hoisted span) =
      passed from append_nil _]
    exact (Leads.option (initializer_folds hkeeps)).bind fun out => .pure fun _ h =>
      ⟨⟨out, rfl, h.1⟩, h.2⟩
  | .constDecl name type value span, params, passed, hkeeps => by
    rw [statement]
    exact (constantValue_folds hkeeps).bind fun out => .pure fun _ h => ⟨⟨out, rfl, h.1⟩, h.2⟩
  | .funcDecl name fields body span endLine, params, passed, ⟨hnone, hkeeps⟩ => by
    rw [statement]
    refine (Leads.setParams fun s h => ⟨h.1, rfl⟩).bind fun _ =>
      (statements_folds body hkeeps).bind fun out => ?_
    refine (Leads.setParams fun s h => ?_).bind fun _ => .pure fun _ h => h
    exact ⟨⟨out, rfl, h.1⟩, h.2.1, hnone.symm⟩
  | .event kind name param body span endLine, params, passed, hkeeps => by
    rw [statement]
    refine (Leads.option (eventParameter_folds kind name)).bind fun param' => ?_
    refine (statements_folds body hkeeps).frame.bind fun body' => .pure fun _ h => ?_
    exact ⟨⟨param', body', rfl, h.1, h.2.1⟩, h.2.2⟩
  | .call name args span, params, passed, _ => by
    rw [statement, show passed ++ Stmt.constants (.call name args span) = passed from append_nil _]
    refine (Leads.exprs args).bind fun out => Leads.context.bind fun _ =>
      (Leads.record _).bind fun _ => .pure ?_
    rintro s ⟨hcall, rfl, ⟨rfl, hfindings⟩, hinv, rfl⟩
    exact ⟨⟨s.defs, hinv, rfl, hfindings, hcall⟩, hinv, rfl⟩
  | .assign target op value span, params, passed, _ => by
    rw [statement, show passed ++ Stmt.constants (.assign target op value span) =
      passed from append_nil _]
    exact (expr_folds value).bind fun out => .pure fun _ h => ⟨⟨out, rfl, h.1⟩, h.2⟩
  | .branch condition thenBody elseBody span, params, passed, ⟨hthen, helse⟩ => by
    rw [statement, Stmt.constants, ← append_assoc]
    refine (expr_folds condition).bind fun condition' => ?_
    refine (statements_folds thenBody hthen).frame.bind fun thenBody' => ?_
    refine (statements_folds elseBody helse).frame.frame.bind fun elseBody' => .pure fun _ h => ?_
    exact ⟨⟨condition', thenBody', elseBody', rfl, h.1, h.2.1, h.2.2.1⟩, h.2.2.2⟩
  | .loop kind body span, params, passed, hkeeps => by
    rw [statement]
    refine (loopHeader_folds kind).bind fun kind' => ?_
    refine (statements_folds body hkeeps).frame.bind fun body' => .pure fun _ h => ?_
    exact ⟨⟨kind', body', rfl, h.1, h.2.1⟩, h.2.2⟩

private theorem statements_folds : ∀ (stmts : List Stmt) {params passed : List String},
    Stmt.KeepsAll c inv params passed stmts → Leads (At inv params passed)
      (fun out s => Stmt.FoldsAll c inv params passed stmts out ∧
        At inv params (passed ++ constantsAll stmts) s)
      (statements c stmts)
  | [], params, passed, _ => by
    rw [statements, constantsAll, append_nil]
    exact .pure fun _ h => ⟨rfl, h⟩
  | stmt :: rest, params, passed, ⟨hfirst, hrest⟩ => by
    rw [statements, constantsAll, ← append_assoc]
    refine (statement_folds stmt hfirst).bind fun out => ?_
    refine (statements_folds rest hrest).frame.bind fun more => .pure fun _ h => ?_
    exact ⟨⟨out, more, rfl, h.1, h.2.1⟩, h.2.2⟩

end

private theorem constantItems_folds
    (hkeeps : Stmt.KeepsAll c inv [] passed (items.filter isConstant)) :
    Leads (At inv [] passed)
      (fun out s => (Stmt.FoldsAll c inv [] passed (items.filter isConstant)
      (out.filter isConstant) ∧
          out.map isConstant = items.map isConstant) ∧
        At inv [] (passed ++ constantsAll (items.filter isConstant)) s)
      (items.mapM (constantItem c)) := by
  induction items generalizing passed with
  | nil =>
    rw [mapM_nil, filter_nil, constantsAll, append_nil]
    exact .pure fun _ h => ⟨⟨rfl, rfl⟩, h⟩
  | cons item rest ih =>
    rw [mapM_cons]
    cases item with
    | constDecl name type value span =>
      refine (statement_folds (.constDecl name type value span) hkeeps.1).bind fun out => ?_
      refine (ih hkeeps.2).frame.bind fun more => .pure ?_
      rintro s ⟨⟨value', rfl, hvalue⟩, ⟨hfolds, hmap⟩, hat⟩
      rw [append_assoc] at hat
      exact ⟨⟨⟨_, _, rfl, ⟨value', rfl, hvalue⟩, hfolds⟩, congrArg (List.cons _) hmap⟩, hat⟩
    | _ =>
      refine (ih hkeeps).bind fun more => .pure fun s h => ?_
      exact ⟨⟨h.1.1, congrArg (List.cons _) h.1.2⟩, h.2⟩

private theorem isOther_constantItems (c : FoldContext) (items : List Stmt) (s : FoldState) :
    Gives (items.mapM (constantItem c)) s fun out _ => out.filter isOther =
    items.filter isOther := by
  induction items generalizing s with
  | nil => rfl
  | cons item rest ih =>
    rw [mapM_cons]
    cases item with
    | constDecl name type value span =>
      rw [constantItem, statement]
      exact ih _
    | _ => exact (ih s).mono fun _ _ h => congrArg (List.cons _) h

private theorem otherItems_folds (hkeeps : Stmt.KeepsAll c inv [] passed (items.filter isOther)) :
    Leads (At inv [] passed)
      (fun out s => (Stmt.FoldsAll c inv [] passed (items.filter isOther) (out.filter isOther) ∧
          out.map isConstant = items.map isConstant ∧
          out.filter isConstant = items.filter isConstant) ∧
        At inv [] (passed ++ constantsAll (items.filter isOther)) s)
      (items.mapM (otherItem c)) := by
  induction items generalizing passed with
  | nil =>
    rw [mapM_nil, filter_nil, constantsAll, append_nil]
    exact .pure fun _ h => ⟨⟨rfl, rfl, rfl⟩, h⟩
  | cons item rest ih =>
    rw [mapM_cons]
    cases item with
    | constDecl name type value span =>
      refine (ih hkeeps).bind fun more => .pure fun s h => ?_
      exact ⟨⟨h.1.1, congrArg (List.cons _) h.1.2.1, congrArg (List.cons _) h.1.2.2⟩, h.2⟩
    | _ =>
      refine (statement_folds _ hkeeps.1).bind fun out => (ih hkeeps.2).frame.bind fun more =>
        .pure ?_
      rintro s ⟨hfirst, ⟨hfolds, hmap, hfilter⟩, hat⟩
      have hconst := hfirst.isConstant_eq
      have hout : out.isOther = true := congrArg not hconst
      rw [append_assoc] at hat
      refine ⟨⟨?_, ?_, ?_⟩, hat⟩
      · rw [filter_cons_of_pos hout]
        exact ⟨_, _, rfl, hfirst, hfolds⟩
      · rw [map_cons, hconst, hmap, map_cons]
      · rw [filter_cons_of_neg (ne_true_of_eq_false hconst), hfilter]
        rfl

private theorem program_folds (hconsts : Stmt.KeepsAll c inv [] [] (items.filter isConstant))
    (hothers : Stmt.KeepsAll c inv [] (constantsAll (items.filter isConstant))
      (items.filter isOther)) : Leads (At inv [] [])
      (fun out s => Stmt.ItemsFold c inv items out ∧ inv (constantsAll (items.filter isConstant) ++
          constantsAll (items.filter isOther)) s.defs)
      (program c items) := by
  intro s
  rw [program, gives_bind]
  refine ((constantItems_folds hconsts s).and (isOther_constantItems c items s)).mono ?_
  rintro out s₁ ⟨hfirst, hfilter⟩
  rw [← hfilter] at hothers ⊢
  refine (otherItems_folds hothers s₁).mono fun out' s₂ hsnd hnil => ?_
  obtain ⟨hnil₁, hsnd⟩ := hsnd hnil
  obtain ⟨hnil₀, hfirst⟩ := hfirst hnil₁
  refine ⟨hnil₀, fun hat => ?_⟩
  obtain ⟨⟨hconsts', hmap⟩, hat₁⟩ := hfirst hat
  obtain ⟨⟨hothers', hmap', hkept⟩, hat₂⟩ := hsnd hat₁
  exact ⟨⟨hkept.symm ▸ hconsts', hfilter ▸ hothers', hmap'.trans hmap⟩, hat₂.1⟩

end Folder

/-- A run of folding without errors leads from a program to its folded form, if its declarations
keep a property that holds of its definitions. -/
theorem Program.fold_folds {catalog : Catalog} {types : TypeTable} {pictures : Pictures}
    {defs : Definitions} {program : Program} (hinv : inv [] defs)
    (hconsts : Stmt.KeepsAll { catalog, types, pictures, defs } inv [] []
      (program.statements.filter isConstant))
    (hothers : Stmt.KeepsAll { catalog, types, pictures, defs } inv []
      (constantsAll (program.statements.filter isConstant)) (program.statements.filter isOther))
    (hclean : (program.fold catalog types pictures defs).errors = []) :
    Stmt.ItemsFold { catalog, types, pictures, defs } inv program.statements
        (program.fold catalog types pictures defs).program.statements ∧
      inv (constantsAll (program.statements.filter isConstant) ++
        constantsAll (program.statements.filter isOther))
        (program.fold catalog types pictures defs).defs :=
  ((Folder.program_folds hconsts hothers { defs }) hclean).2 ⟨hinv, rfl⟩

private theorem Expr.items?_fold {c : FoldContext} {items : List Expr} :
    ∀ {e : Expr}, e.items? = some items → (e.fold c).items? = some (foldAll c items) ∧
      e.findings c = findingsAll c items
  | .list .., h => by
    cases h
    rw [fold, findings]
    exact ⟨rfl, rfl⟩
  | .group _ inner, h => by
    obtain ⟨hitems, hfindings⟩ := items?_fold (e := inner) h
    have hvalue : (inner.fold c).value? = none := by
      unfold items? at hitems
      unfold value?
      split at hitems
      · rename_i heq
        rw [heq]
      · cases hitems
    rw [fold, hvalue, findings]
    exact ⟨hitems, hfindings⟩
  | .ident .., h | .literal .., h | .call .., h | .cast .., h | .not .., h
  | .binary .., h => by cases h

private theorem Definitions.value?_setConstant {d : Definitions} (name other : String)
    (value : Value) :
    (d.setConstant name value).value? other = if name =
      other then (d.constants.get? other).map fun _ => value else d.value? other := by
  unfold value? setConstant
  rw [Table.get?_modify]
  split
  · cases d.constants.get? other <;> rfl
  · rfl

namespace Finished

variable {w : Finished} {fits : Value → DataType → Prop} {function : Option String}
  {params passed : List String} {d : Definitions} {c : FoldContext}

/-- Whether folding passes over the parameters of the function around, none of which is a list. -/
structure Around (w : Finished) (function : Option String) (params : List String) : Prop where
  outside : function = none → params = []
  hidden : ∀ name, (w.context function).param? name ≠ none ↔ name ∈ params
  scalar : ∀ name p, (w.context function).param? name = some p → p.type.isList = false

/-- No parameters outside. -/
theorem around_none : w.Around none [] where
  outside _ := rfl
  hidden _ := ⟨fun h => absurd rfl h, nofun⟩
  scalar _ _ h := by cases h

private theorem mem_numberParams {next : Nat} {fields : List (String × DataType)}
    {p : FunctionParam} (h : p ∈ Definitions.numberParams next fields) :
    (p.name, p.type) ∈ fields := by
  induction fields generalizing next with
  | nil => cases h
  | cons field rest ih =>
    rcases mem_cons.mp h with rfl | h
    · exact mem_cons_self
    · exact mem_cons_of_mem _ (ih h)

/-- In the body of a function, its parameters are passed over. -/
theorem around_function {name : String} {fields : List Parameter} {body : List Stmt} {span : Span}
    {endLine : Nat} (h : (Stmt.funcDecl name fields body span endLine).Announced w.defs) :
    w.Around (some name) (fields.map (·.name)) := by
  obtain ⟨hlists, f, first, hf, hparams⟩ := h
  obtain ⟨g, hg, hparams'⟩ := Definitions.exists_function_of_lookup hf
  have hparam {other : String} {p : FunctionParam}
      (hp : (w.context (some name)).param? other = some p) :
      p.name = other ∧ ∃ field ∈ fields, field.name = p.name ∧ field.type = p.type := by
    have hfind : g.param? other = some p := by
      simpa [LowerContext.param?, context, hg] using hp
    have hmem := mem_of_find?_eq_some hfind
    rw [hparams', hparams] at hmem
    obtain ⟨field, hfield, heq⟩ := mem_map.mp (mem_numberParams hmem)
    exact ⟨by simpa using find?_some hfind, field, hfield, congrArg Prod.fst heq,
      congrArg Prod.snd heq⟩
  refine ⟨by rintro ⟨⟩, fun other => ⟨fun hne => ?_, fun hmem => ?_⟩, fun other p hp => ?_⟩
  · obtain ⟨p, hp⟩ := Option.ne_none_iff_exists'.mp hne
    obtain ⟨rfl, field, hfield, hname, _⟩ := hparam hp
    exact mem_map.mpr ⟨field, hfield, hname⟩
  · have hnames := Definitions.names_numberParams first (fields.map fun p => (p.name, p.type))
    rw [← hparams, ← hparams', map_map] at hnames
    obtain ⟨p, hp, rfl⟩ := mem_map.mp (show other ∈ g.params.map (·.name) from hnames ▸ hmem)
    intro hnone
    have hfind : g.param? p.name = none := by simpa [LowerContext.param?, context, hg] using hnone
    exact find?_eq_none.mp hfind p hp (by simp)
  · obtain ⟨_, field, hfield, _, htype⟩ := hparam hp
    exact htype ▸ hlists field hfield

/-- Whether the constants that have been passed have values that fit their types. -/
structure Fit (w : Finished) (fits : Value → DataType → Prop) (passed : List String)
    (d : Definitions) : Prop where
  lookup : d.lookup = w.defs.lookup
  values : ∀ name ∈ passed, ∀ k, w.defs.lookup .constant name = some (.constant k) →
    ∃ value, d.value? name = some value ∧ fits value k.type

private theorem Fit.setConstant (hfit : w.Fit fits passed d) {name : String} {k : Constant}
    (hk : w.defs.lookup .constant name = some (.constant k)) {v : Value} (hv : fits v k.type) :
    w.Fit fits (passed ++ [name]) (d.setConstant name v) := by
  refine ⟨(Definitions.lookup_setConstant d name v).trans hfit.lookup,
    fun other hother k' hk' => ?_⟩
  rw [Definitions.value?_setConstant]
  split
  · rename_i heq
    subst heq
    cases hk.symm.trans hk'
    rw [← hfit.lookup] at hk
    obtain ⟨found, hfound, _⟩ := Option.map_eq_some_iff.mp hk
    exact ⟨v, by rw [hfound]; rfl, hv⟩
  · rename_i hne
    rcases mem_append.mp hother with hother | hother
    · exact hfit.values other hother k' hk'
    · exact absurd (mem_singleton.mp hother).symm hne

/-- Whether values that folding finds for typed expressions fit, as long as what it knows does. -/
def FindsFitting (w : Finished) (fits : Value → DataType → Prop) (c : FoldContext) : Prop :=
  ∀ {function : Option String} {params passed : List String} {d : Definitions} {e : Expr}
    {type : DataType} {v : Value}, w.Around function params → w.Fit fits passed d →
    e.Typed (w.typing function passed) type →
      (e.fold (c.within d params)).value? = some v → fits v type

mutual

private theorem keeps_of_accepted (hfinds : w.FindsFitting fits c) :
    ∀ {stmt : Stmt} {function : Option String} {params passed : List String},
    w.Around function params →
      stmt.Accepted w function passed → stmt.Keeps c (w.Fit fits) params passed
  | .varDecl .., _, _, _, _, _ => fun d items h =>
    ⟨(Definitions.lookup_setItems d _ items).trans h.lookup, h.values⟩
  | .constDecl .., _, _, _, haround, ⟨_, hk, htyped⟩ => fun _ _ hfit _ hv =>
    hfit.setConstant hk (hfinds haround hfit htyped hv)
  | .funcDecl .., _, _, _, haround, ⟨hnone, hheld, hbody⟩ =>
    ⟨haround.outside hnone, keepsAll_of_accepted hfinds (around_function hheld) hbody⟩
  | .event .., _, _, _, haround, ⟨_, hbody⟩ => keepsAll_of_accepted hfinds haround hbody
  | .branch .., _, _, _, haround, ⟨_, hthen, helse⟩ =>
    ⟨keepsAll_of_accepted hfinds haround hthen, keepsAll_of_accepted hfinds haround helse⟩
  | .loop .., _, _, _, haround, ⟨_, hbody⟩ => keepsAll_of_accepted hfinds haround hbody
  | .call .., _, _, _, _, _ => trivial
  | .assign .., _, _, _, _, _ => trivial

private theorem keepsAll_of_accepted (hfinds : w.FindsFitting fits c) :
    ∀ {stmts : List Stmt} {function : Option String} {params passed : List String},
      w.Around function params → Stmt.AcceptedAll w function passed stmts →
      Stmt.KeepsAll c (w.Fit fits) params passed stmts
  | [], _, _, _, _, _ => trivial
  | _ :: _, _, _, _, haround, ⟨hfirst, hrest⟩ =>
    ⟨keeps_of_accepted hfinds haround hfirst, keepsAll_of_accepted hfinds haround hrest⟩

end

/-- In a run of folding on an accepted program, what is known fits at every expression and in the
end. -/
theorem fold_fits {pictures : Pictures}
    (hfinds : w.FindsFitting fits ⟨w.catalog, w.types, pictures, w.defs, []⟩) {program : Program}
    (h : w.AcceptsItems program.statements)
    (hclean : (program.fold w.catalog w.types pictures w.defs).errors = []) :
    Stmt.ItemsFold ⟨w.catalog, w.types, pictures, w.defs, []⟩ (w.Fit fits) program.statements
        (program.fold w.catalog w.types pictures w.defs).program.statements ∧
      w.Fit fits (constantsAll (program.statements.filter isConstant) ++
          constantsAll (program.statements.filter isOther))
        (program.fold w.catalog w.types pictures w.defs).defs :=
  Program.fold_folds ⟨rfl, by simp⟩ (keepsAll_of_accepted hfinds around_none h.constants)
    (keepsAll_of_accepted hfinds around_none h.others) hclean

/-- Whether folding makes one expression of another in the same function, where the first one is
typed and what folding knows fits. -/
structure Folds (w : Finished) (fits : Value → DataType → Prop) (c : FoldContext)
    (p q : Option String × Expr) : Prop where
  function : q.1 = p.1
  folds : ∃ params passed type, w.Around p.1 params ∧ p.2.Typed (w.typing p.1 passed) type ∧
    p.2.FoldsTo c (w.Fit fits) params passed q.2

private theorem folds_of_typed (haround : w.Around function params) {e out : Expr} {type : DataType}
    (htyped : e.Typed (w.typing function passed) type)
    (h : e.FoldsTo c (w.Fit fits) params passed out) :
    w.Folds fits c (function, e) (function, out) :=
  ⟨rfl, params, passed, type, haround, htyped, h⟩

private theorem folds_of_typedAll (haround : w.Around function params) (hfit : w.Fit fits passed d)
    {es : List Expr} {types : List DataType}
    (htyped : Expr.TypedAll (w.typing function passed) es types)
    (hfindings : Expr.findingsAll (c.within d params) es = []) :
    Forall₂ (w.Folds fits c) (es.map (function, ·))
    ((Expr.foldAll (c.within d params) es).map (function, ·)) := by
  induction es generalizing types with
  | nil => exact .nil
  | cons e rest ih =>
    cases htyped with | cons hfirst hrest =>
    obtain ⟨hfinding, hfindings⟩ := append_eq_nil_iff.mp hfindings
    exact .cons (folds_of_typed haround hfirst ⟨d, hfit, rfl, hfinding⟩) (ih hrest hfindings)

mutual

private theorem folds_exprs :
    ∀ {stmt out : Stmt} {function : Option String} {params passed : List String},
      w.Around function params → stmt.Accepted w function passed → stmt.FoldsTo c (w.Fit fits)
      params passed out → Forall₂ (w.Folds fits c) (stmt.exprs function) (out.exprs function)
  | .varDecl _ _ none _ _, _, _, _, _, _, _, ⟨_, rfl, .none⟩ => .nil
  | .varDecl _ _ (some e) _ _, _, _, _, _, haround, hacc, ⟨_, rfl, .some hrel⟩ => by
    obtain ⟨⟨d, hfit, rfl, hfindings⟩, _⟩ := hrel
    obtain ⟨items, types, hitems, htyped⟩ := hacc e rfl
    obtain ⟨hfolded, hfound⟩ := Expr.items?_fold hitems
    rw [hfound] at hfindings
    simpa [Stmt.exprs, Expr.initial, hitems, hfolded] using
      folds_of_typedAll haround hfit htyped hfindings
  | .constDecl .., _, _, _, _, haround, ⟨_, _, htyped⟩, ⟨_, rfl, hfolds, _⟩
  | .assign .., _, _, _, _, haround, ⟨⟨_, htyped⟩, _⟩, ⟨_, rfl, hfolds⟩ =>
    .cons (folds_of_typed haround htyped hfolds) .nil
  | .funcDecl .., _, _, _, _, _, ⟨_, hheld, hbody⟩, ⟨_, rfl, hfolds⟩ =>
    folds_exprsAll (around_function hheld) hbody hfolds
  | .event _ _ none _ _ _, _, _, _, _, haround, ⟨_, hbody⟩, ⟨_, _, rfl, .none, hfolds⟩ =>
    folds_exprsAll haround hbody hfolds
  | .event kind name (some arg) _ _ _, _, _, _, _, haround, ⟨hcan, hbody⟩, ⟨_, _, rfl, .some hrel,
      hfolds⟩ => by
    obtain ⟨d, hfit, rfl, hfindings, _⟩ := hrel
    unfold TypingContext.CanHandle at hcan
    split at hcan
    · cases hcan.2
    obtain ⟨_, _, _, _, harg⟩ := hcan.exists_typed
    exact .cons (folds_of_typed haround harg ⟨d, hfit, rfl, hfindings⟩)
      (folds_exprsAll haround hbody hfolds)
  | .call .., _, _, _, _, haround, ⟨_, hargs, _⟩, ⟨_, hfit, rfl, hfindings, _⟩ =>
    folds_of_typedAll haround hfit hargs hfindings
  | .branch .., _, _, _, _, haround, ⟨hcond, hthen, helse⟩, ⟨_, _, _, rfl, hfolds, hthen',
      helse'⟩ =>
    .cons (folds_of_typed haround hcond hfolds)
      (rel_append (folds_exprsAll haround hthen hthen') (folds_exprsAll haround helse helse'))
  | .loop .forever _ _, _, _, _, _, haround, ⟨_, hbody⟩, ⟨_, _, rfl, rfl, hfolds⟩ =>
    folds_exprsAll haround hbody hfolds
  | .loop (.times _) _ _, _, _, _, _, haround, ⟨hcount, hbody⟩, ⟨_, _, rfl, ⟨_, rfl, hfolds⟩,
    hfolds'⟩
  | .loop (.until _) _ _, _, _, _, _, haround, ⟨hcount, hbody⟩, ⟨_, _, rfl, ⟨_, rfl, hfolds⟩,
      hfolds'⟩ =>
    .cons (folds_of_typed haround hcount hfolds) (folds_exprsAll haround hbody hfolds')

/-- All expressions are folded. -/
theorem folds_exprsAll :
    ∀ {stmts out : List Stmt} {function : Option String} {params passed : List String},
      w.Around function params → Stmt.AcceptedAll w function passed stmts →
      Stmt.FoldsAll c (w.Fit fits) params passed stmts out → Forall₂ (w.Folds fits c)
      (Stmt.exprsAll function stmts) (Stmt.exprsAll function out)
  | [], _, _, _, _, _, _, rfl => .nil
  | _ :: _, _, _, _, _, haround, ⟨hfirst, hrest⟩, ⟨_, _, rfl, hfolds, hfolds'⟩ =>
    rel_append (folds_exprs haround hfirst hfolds) (folds_exprsAll haround hrest hfolds')

end

end Finished

end BlockScript
