import BlockScript.Proofs.NormalForm

/-!
# Divisors

Folding refuses an operation that divides by a literal zero. So in the graph of a program that
compiles a block divides by the literal zero in two cases only: an assignment divides a variable or
a property by its value, which folding does not check, or a constant has the name of a readable
property.
-/

namespace BlockScript

open List

/-- The kinds of blocks that divide. -/
def dividingOpcodes : List String := ["operator_divide", "operator_mod"]

mutual

/-- What the assignments of a statement divide by. -/
def Stmt.divisors : Stmt → List Expr
  | .assign _ op value _ => if op.binary?.any BinaryOp.divides then [value] else []
  | .funcDecl _ _ body _ _ | .event _ _ _ body _ _ | .loop _ body _ => divisorsAll body
  | .branch _ thenBody elseBody _ => divisorsAll thenBody ++ divisorsAll elseBody
  | _ => []

/-- What the assignments of statements divide by. -/
def Stmt.divisorsAll : List Stmt → List Expr
  | [] => []
  | stmt :: rest => stmt.divisors ++ divisorsAll rest

end

namespace LowerContext

variable {c : LowerContext} {function : Option String} {es : List (Option String × Expr)}
  {ds : List Expr}

/-- Whether an expression is a part of some expressions, in a function. -/
def Within (function : Option String) (es : List (Option String × Expr)) (e : Expr) : Prop :=
  ∃ whole, (function, whole) ∈ es ∧ e.parts ⊆ whole.parts

private theorem Within.of_mem {e : Expr} (h : (function, e) ∈ es) :
    Within function es e := ⟨e, h, List.Subset.refl _⟩

private theorem Within.part {e part : Expr} (h : Within function es e)
    (hpart : part.parts ⊆ e.parts) : Within function es part := by
  obtain ⟨whole, hwhole, hsub⟩ := h
  exact ⟨whole, hwhole, fun _ hmem => hsub (hpart hmem)⟩

private theorem parts_subset_partsAll {args : List Expr} {arg : Expr} (harg : arg ∈ args) :
    arg.parts ⊆ Expr.partsAll args := by
  induction args with
  | nil => cases harg
  | cons first rest ih =>
    rcases mem_cons.mp harg with rfl | harg
    · exact subset_append_left _ _
    · exact subset_append_of_subset_right _ (ih harg)

private theorem known_body {body : List Stmt} (hexprs : Stmt.exprsAll function body ⊆ es)
    (hdivs : Stmt.divisorsAll body ⊆ ds) :
    ∀ stmt ∈ body, stmt.exprs function ⊆ es ∧ stmt.divisors ⊆ ds := by
  induction body with
  | nil => exact forall_mem_nil _
  | cons stmt rest ih =>
    obtain ⟨hfirst, hrest⟩ := append_subset.mp hexprs
    obtain ⟨hfirst', hrest'⟩ := append_subset.mp hdivs
    exact forall_mem_cons.mpr ⟨⟨hfirst, hfirst'⟩, ih hrest hrest'⟩

/-- What is known of expressions and statements in a function, whose parts and divisors are among
some. -/
def Source.within (c : LowerContext) (function : Option String) (es : List (Option String × Expr))
    (ds : List Expr) : c.Source where
  expr := Within function es
  stmt stmt := stmt.exprs function ⊆ es ∧ stmt.divisors ⊆ ds
  call _ _ _ := True
  divisor x :=
    x ∈ ds ∨ ∃ tag op left, Within function es (.binary tag op left x) ∧ op.divides = true
  group h := h.part (subset_cons_self _ _)
  cast h := h.part (subset_cons_self _ _)
  not h := h.part (subset_cons_self _ _)
  binary h := ⟨h.part (subset_cons_of_subset _ (subset_append_left _ _)),
    h.part (subset_cons_of_subset _ (subset_append_right _ _)), fun hdivides =>
    .inr ⟨_, _, _, h, hdivides⟩⟩
  arg h _ harg := h.part (subset_cons_of_subset _ (parts_subset_partsAll harg))
  expr_call _ _ _ := trivial
  stmt_arg h _ harg := .of_mem (h.1 (mem_map_of_mem harg))
  stmt_call _ _ _ _ _ := trivial
  assign h := ⟨.of_mem (h.1 mem_cons_self), fun hdivides =>
    .inl (h.2 (by rw [Stmt.divisors, if_pos hdivides]; exact mem_cons_self))⟩
  branch h := by
    obtain ⟨hexprs, hdivs⟩ := h
    rw [Stmt.exprs, cons_subset, append_subset] at hexprs
    obtain ⟨hthen, helse⟩ := append_subset.mp hdivs
    exact ⟨.of_mem hexprs.1, known_body hexprs.2.1 hthen, known_body hexprs.2.2 helse⟩
  loop h := by
    obtain ⟨hexprs, hdivs⟩ := h
    rw [Stmt.exprs, append_subset] at hexprs
    exact ⟨fun _ he => .of_mem (hexprs.1 (mem_map_of_mem he)), known_body hexprs.2 hdivs⟩

private theorem ScriptWay.exists_divisor {S : c.Source} {opcode : String} {shadow : Bool}
    {steps : List Step} (hcat : c.catalog = Robot.catalog) (h : c.ScriptWay S opcode shadow steps)
    (hcode : opcode ∈ dividingOpcodes) :
    ∃ left x, S.divisor x ∧ steps = [.input "NUM1" left, .input "NUM2" (c.lowerExpr x)] := by
  have hown : opcode ∈ ownOpcodes := (by decide : dividingOpcodes ⊆ ownOpcodes) hcode
  have hsig {s : Signature} (hs : s ∈ c.catalog.signatures) : s.opcode ∉ ownOpcodes :=
    Robot.tellsApart.signatures s (hcat ▸ hs)
  have hother {opcodes : List String} (hmem : opcode ∈ opcodes)
      (hapart : ∀ opcode ∈ opcodes, opcode ∉ dividingOpcodes) : False := hapart opcode hmem hcode
  cases h with
  | hat hs => exact absurd hown (hsig (Catalog.mem_signatures_of_hat? hs))
  | receiver | definition | prototype => exact absurd hcode (by decide)
  | inner h =>
    cases h with
    | @operation op type left right hright =>
      generalize hlayout : op.layout type = layout at hcode ⊢
      have hdivides : op.divides = true ∧ layout.2 = ("NUM1", "NUM2") := by
        subst hlayout
        revert hcode
        cases op <;> cases type <;> decide
      obtain ⟨x, hx, rfl⟩ := hright hdivides.1
      exact ⟨left, x, hx, by rw [hdivides.2]⟩
    | control hcontrol => exact (hother hcontrol (by decide)).elim
    | @param f p => exact (hother p.type.reporterOpcode_mem (by decide)).elim
    | scalar hv hvar => exact (hother hvar (by decide)).elim
    | list | functionCall | eventMenu => exact absurd hcode (by decide)
    | accessor hs => exact absurd hown (hsig (Catalog.accessors_subset _ hs))
    | setter hp => exact absurd hown (hsig (Catalog.mem_signatures_of_set hp))
    | builtin hs => exact absurd hown (hsig hs.mem_signatures)
    | @menu s spec name _ field text hs hspec hslot =>
      exact absurd hown
        (Robot.tellsApart.menus s (hcat ▸ hs) spec hspec opcode (by rw [hslot]; rfl)).1

private theorem eq_literal_of_inputs {face : Face} {left right : Content} {start : Nat} {v : Value}
    (h : ((assembleFrom face [.input "NUM1" left, .input "NUM2" right]).1.contents.inputsFrom start
    {}).get? "NUM2" = some (.literal v)) : right = .literal v := by
  rcases left with _ | ⟨_ | _, _ | _⟩ <;> rcases right with value | ⟨_ | _, _ | _⟩ <;>
    cases h <;> rfl

end LowerContext

namespace Expr

variable {tag : Tag} {l : LowerContext}

private theorem exists_of_fold_eq_binary {c : FoldContext} {source left right : Expr}
    {op : BinaryOp} (h : source.fold c = .binary tag op left right) :
    ∃ left' right', source = .binary tag op left' right' ∧ right = right'.fold c := by
  cases source with
  | binary tag' op' left' right' =>
    rw [fold] at h
    unfold literalOr at h
    split at h
    · cases h
    · cases h
      exact ⟨_, _, rfl, rfl⟩
  | literal | list => cases h
  | _ =>
    rw [fold] at h
    unfold literalOr at h
    split at h <;> cases h

private theorem eq_of_lowerExpr_literal {value v : Value}
    (h : l.lowerExpr (.literal tag value) = .literal v) : value = v := by
  cases value with
  | boolean b => cases b <;> simp [LowerContext.lowerExpr, Content.nothing, Content.ofSteps] at h
  | _ => simpa [LowerContext.lowerExpr] using h

/-- Whether an expression has a value, or a name in it stands for the value. -/
def StandsFor (e : Expr) (l : LowerContext) (v : Value) : Prop :=
  e.value? = some v ∨ ∃ p ∈ e.names, ∃ span, l.lowerName p.2 span = .literal v

private theorem standsFor_literalOr {v : Value} {value : Option Value} {node : Expr}
    (h : l.lowerExpr (literalOr tag value node) = .literal v)
    (hnone : value = none → l.lowerExpr node = .literal v → node.StandsFor l v) :
    (literalOr tag value node).StandsFor l v := by
  cases value with
  | some value =>
    cases eq_of_lowerExpr_literal h
    exact .inl rfl
  | none => exact hnone rfl h

private theorem Typed.standsFor {t : TypingContext} {c : FoldContext} (htypes : l.types = t.types)
    {e : Expr} (h : e.Typed t .number) {n : Float}
    (hn : l.lowerExpr (e.fold c) = .literal (.number n)) : (e.fold c).StandsFor l (.number n) := by
  cases e with
  | literal tag value =>
    rw [fold] at hn ⊢
    exact .inl (congrArg some (eq_of_lowerExpr_literal hn))
  | ident tag name =>
    rw [fold] at hn ⊢
    refine standsFor_literalOr hn fun hnone hn => ?_
    rw [LowerContext.lowerExpr] at hn
    exact .inr ⟨_, mem_cons_self, _, hn⟩
  | call tag callee args =>
    rw [fold] at hn ⊢
    refine standsFor_literalOr hn fun _ hn => ?_
    rw [LowerContext.lowerExpr] at hn
    repeat' split at hn
    all_goals cases hn
  | not tag operand =>
    rw [fold] at hn ⊢
    refine standsFor_literalOr hn fun _ hn => ?_
    rw [LowerContext.lowerExpr] at hn
    cases hn
  | binary tag op left right =>
    rw [fold] at hn ⊢
    refine standsFor_literalOr hn fun _ hn => ?_
    rw [LowerContext.lowerExpr] at hn
    split at hn <;> cases hn
  | group tag inner =>
    cases h with | group hinner _ =>
    rw [fold] at hn ⊢
    refine standsFor_literalOr hn fun hnone hn => ?_
    rw [LowerContext.lowerExpr] at hn
    exact hinner.standsFor htypes hn
  | cast tag target operand =>
    cases h with | @cast _ _ source _ hoperand hcast _ =>
    rw [fold] at hn ⊢
    refine standsFor_literalOr hn fun hnone hn => ?_
    have hrecorded : l.types.get? (operand.fold c).id = some source := by
      rw [htypes, Expr.id, tag_fold]
      exact hoperand.recorded
    rw [LowerContext.lowerExpr, hrecorded] at hn
    dsimp only at hn
    -- What becomes a number without an operation is one already.
    cases source with
    | number =>
      refine .inr ((hoperand.standsFor htypes hn).resolve_left fun hvalue => ?_)
      rw [hvalue] at hnone
      cases hnone
    | string => cases hn
    | _ => cases hcast
  | list => cases h
termination_by structural e

end Expr

/-- The function that an item declares. -/
def Stmt.declares? : Stmt → Option String
  | .funcDecl name _ _ _ _ => some name
  | _ => none

private theorem LowerContext.value?_of_lowerName {l : LowerContext} {name : String} {span : Span}
    {v : Value} (h : l.lowerName name span = .literal v) : l.defs.value? name = some v := by
  unfold lowerName at h
  repeat' split at h
  all_goals first | (cases h; assumption) | cases h

private theorem BinaryOp.number_of_divides (op : BinaryOp) (h : op.divides)
    {left right type : DataType} (hres : op.resultType? left right = some type) :
    right = .number := by
  cases op with
  | div | mod =>
    unfold resultType? at hres
    dsimp only at hres
    split at hres
    · rename_i hnums
      simpa using (Bool.and_eq_true_iff.mp hnums).2
    · cases hres
  | _ => cases h

namespace Finished

variable {w : Finished} {d : Definitions} {c : FoldContext}

private theorem Folds.exists_reporter (hw : w.Consistent fun _ _ => True) (hready : w.Ready d)
    {p q : Option String × Expr} (hfolds : w.Folds (fun _ _ => True) c p q) {tag : Tag}
    {op : BinaryOp} {left x : Expr} (hx : .binary tag op left x ∈ q.2.parts) (hdivides : op.divides)
    {v : Value} (hv : (w.lowering d q.1).lowerExpr x = .literal v) (hzero : v.isZero) :
    ∃ use, w.resolved use ∧ (use.id, use.name) ∈ x.names ∧ use.entity.isReporter ∧
      d.value? use.name = some v := by
  obtain ⟨hfun, params, passed, _, haround, htyped, d', hfit, hout, hfinds⟩ := hfolds
  rw [hout] at hx
  obtain ⟨source, hsrc, heq⟩ := Expr.formsOf_parts _ p.2 _ hx
  obtain ⟨left', right, rfl, rfl⟩ := Expr.exists_of_fold_eq_binary heq.symm
  have hclean := Expr.findings_parts hfinds _ hsrc
  obtain ⟨_, hfound⟩ := htyped.parts _ hsrc
  cases hfound with | binary _ hright hop _ =>
  cases op.number_of_divides hdivides hop
  obtain ⟨n, rfl⟩ : ∃ n, v = .number n := by
    cases v with
    | number n => exact ⟨n, rfl⟩
    | _ => cases hzero
  rw [hfun] at hv
  rcases hright.standsFor rfl hv with hvalue | ⟨⟨id, name⟩, hname, span, hlower⟩
  · -- Folding would have refused the division.
    have hnone := (append_eq_nil_iff.mp hclean).2
    obtain ⟨fault, hfault⟩ := Option.isSome_iff_exists.mp hdivides
    simp [FoldContext.binaryFindings, hfault, hvalue, hzero] at hnone
  · have hread := hname
    rw [Expr.names_fold, mem_filter, Option.isNone_iff_eq_none] at hname
    obtain ⟨entity, hdenotes, _⟩ := hright.names _ hname.1
    refine ⟨_, hdenotes.1, hread, ?_, LowerContext.value?_of_lowerName hlower⟩
    by_contra hrep
    have hreports := hw.reports_lowerName hready hdenotes.1 (fun h => absurd h hrep) span
    rw [hlower] at hreports
    cases entity with
    | param | scalar | list => cases hreports
    | constant k => exact known?_ne_none hw haround hfit hdenotes hname.2
    | reporter => exact hrep rfl

end Finished

private theorem LowerContext.Source.item_within {c : LowerContext}
    {es : List (Option String × Expr)} {item : Stmt} (h : item.exprs none ⊆ es) :
    (within c item.declares? es item.divisors).Item item := by
  cases item with
  | event kind name param body span endLine =>
    rw [Stmt.exprs, append_subset] at h
    exact ⟨fun e he => .of_mem (h.1 (mem_map_of_mem (Option.mem_toList.mpr he))),
      known_body h.2 (List.Subset.refl _)⟩
  | funcDecl name params body span endLine => exact known_body h (List.Subset.refl _)
  | _ => trivial

private theorem Block.Stands.exists_way {W : Ways} {complete : Bool} {p : Placed}
    (h : p.block.Stands W complete) :
    ∃ shadow steps, W p.node.face.opcode shadow steps ∧ p.node.inputs =
      (assembleFrom { opcode := p.node.face.opcode, shadow } steps).1.contents.inputsFrom (p.id + 1)
      {} := by
  obtain ⟨shadow, core, ⟨opcode, steps, fault, hway, hcore, _⟩, hblock⟩ := h
  have hface : core.face.opcode = opcode := by
    have hface := face_assembleFrom { opcode, shadow } steps
    rw [hcore] at hface
    exact (congrArg Face.opcode hface).trans (foldl_onFace _ _).1
  have hnode :
      p.node.face = core.face ∧ p.node.inputs = core.contents.inputsFrom (p.id + 1) {} := by
    rcases hblock with heq | ⟨_, link, next, heq, hlink⟩
    · rw [← heq]
      exact ⟨rfl, rfl⟩
    · rw [Placed.node, Contents.node, heq]
      refine ⟨rfl, (Contents.inputsFrom_append _ _ _ _).trans ?_⟩
      rcases hlink with rfl | ⟨_, rfl⟩ <;> rfl
  rw [hnode.1, hface]
  exact ⟨shadow, steps, hway, by rw [hcore, hnode.2]⟩

private theorem Expr.mem_parts (e : Expr) : e ∈ e.parts := by
  cases e <;> exact mem_cons_self

/-- Division by a literal zero of either sign does not compile, except in two cases. A block that
divides by a literal zero is in the script of an item. Its divisor is the value that an
assignment of this item divides by, or else it reads a property that has the name of a constant
which is zero. -/
theorem compile_divisors {path : String} {pictures : Pictures} {options : CompileOptions}
    {source : Source} {result : Compilation}
    (h : compile path Robot.catalog pictures options source = .ok result) :
    ∃ st, stagesOf path Robot.catalog pictures options.defines options.analysis source = .ok st ∧
      ∀ id node, result.graph.nodes[id]? = some node → node.face.opcode ∈ dividingOpcodes →
        ∀ v, node.inputs.get? "NUM2" = some (.literal v) → v.isZero = true →
          ∃ item top, (item, top) ∈ st.folding.program.scripts.zip result.graph.tops ∧
            result.graph.Leads id top ∧
            ∃ x, ((st.lowerContext Robot.catalog).inside item).lowerExpr x = .literal v ∧
              (x ∈ item.divisors ∨
                ∃ use ∈ resolutions Robot.catalog options.analysis st.parsed.program,
                  (use.id, use.name) ∈ x.names ∧ use.entity.isReporter = true ∧
                  st.folding.defs.value? use.name = some v) := by
  obtain ⟨st, hst, hclean, hlow, hblocks⟩ := blocks_of_compile h
  refine ⟨st, hst, fun id node hnode hcode v hv hzero => ?_⟩
  rw [hblocks] at hnode ⊢
  obtain ⟨macros, tokens, _, rfl⟩ := stagesOf_eq_ok_iff.mp hst
  obtain ⟨hacc, hfolding⟩ := hclean.accepts Robot.complete
  obtain ⟨item, top, b, p, hitem, hok, hscript, _, rfl, rfl, hleads⟩ := Graph.exists_item hlow hnode
  have hmem := mem_of_mem_filter (of_mem_zip hitem).1
  obtain ⟨shadow, steps, hway, hinputs⟩ := (LowerContext.stands_of_lowerItem
    (LowerContext.Source.item_within (List.Subset.refl _))
    (congrArg Assembly.block hok) hscript).exists_way
  obtain ⟨left, x, hdivisor, rfl⟩ := hway.exists_divisor (LowerContext.catalog_inside _ _) hcode
  rw [hinputs] at hv
  have hlower := LowerContext.eq_literal_of_inputs hv
  refine ⟨item, top, hitem, hleads, x, hlower, ?_⟩
  rcases hdivisor with hx | ⟨tag, op, _, ⟨whole, hwhole, hsub⟩, hdivides⟩
  · exact .inl hx
  · let w := finished Robot.catalog options.analysis (parse (macros.expand tokens).tokens).program
    have hcons : w.Consistent fun _ _ => True :=
      ⟨⟨fun _ => trivial, fun _ => trivial, fun _ _ _ _ => trivial⟩, Robot.computesNumbers,
        hacc.supports, hacc.distinct, fun _ _ _ _ _ _ _ => trivial⟩
    obtain ⟨_, _, hfolds⟩ := hacc.exists_folds (hcons.findsFitting _) hfolding
      (Stmt.mem_exprsAll.mpr ⟨item, hmem, hwhole⟩)
    refine .inr (hfolds.exists_reporter hcons (hacc.ready_fold pictures hfolding)
      (hsub (Expr.mem_parts _)) hdivides ?_ hzero)
    rw [← hlower]
    cases item <;> rfl

/-- A program that divides by a constant and by a sum. -/
def twoDivisors : Source :=
  Source.ofText "const two = 2\nvar x = 1\n@start:\n  x = x / two\n  x = x % (two + 1)\n"

/-- Neither divisor is zero. -/
theorem compile_divisors_twoDivisors : ∃ result,
    compile "main.bot" Robot.catalog noPictures {} twoDivisors = .ok result ∧
    (result.graph.nodes.filter (·.face.opcode ∈ dividingOpcodes)).length = 2 ∧
    ∀ node ∈ result.graph.nodes, node.face.opcode ∈ dividingOpcodes →
      ∀ v, node.inputs.get? "NUM2" = some (.literal v) → v.isZero ≠ true := by
  have hany : (compile "main.bot" Robot.catalog noPictures {} twoDivisors).toOption.any
      (fun result =>
      (result.graph.nodes.filter (·.face.opcode ∈ dividingOpcodes)).length == 2) =
        true := by decide +kernel
  have hfree :
      (stagesOf "main.bot" Robot.catalog noPictures [] {} twoDivisors).toOption.any (fun st =>
      (st.folding.program.statements.all fun item => item.divisors.isEmpty) &&
      (resolutions Robot.catalog {} st.parsed.program).all (! ·.entity.isReporter)) =
        true := by decide +kernel
  obtain ⟨result, hres, hlen⟩ := exists_of_toOption_any hany
  obtain ⟨st, hst, hdivs⟩ := compile_divisors hres
  rw [hst, Except.toOption, Option.any_some, Bool.and_eq_true_iff, all_eq_true, all_eq_true]
    at hfree
  refine ⟨result, hres, eq_of_beq hlen, fun node hnode hcode v hv hzero => ?_⟩
  obtain ⟨id, hid⟩ := mem_iff_getElem?.mp hnode
  obtain ⟨item, top, hitem, _, x, _, hx | ⟨use, huse, _, hrep, _⟩⟩ :=
    hdivs id node hid hcode v hv hzero
  · rw [isEmpty_iff.mp (hfree.1 item (mem_of_mem_filter (of_mem_zip hitem).1))] at hx
    cases hx
  · have hother := hfree.2 use huse
    rw [hrep] at hother
    cases hother

/-- An assignment that divides by zero. -/
def zeroDivisor : Source := Source.ofText "var x = 1\n@start:\n  x /= 0\n"

/-- The assignment compiles, and its block divides by the literal zero. -/
theorem compile_divides_zeroDivisor :
    (compile "main.bot" Robot.catalog noPictures {} zeroDivisor).toOption.any
      (fun result => result.graph.nodes.any fun node => node.face.opcode == "operator_divide" &&
      node.inputs.get? "NUM2" == some (.literal (.number 0))) = true := by
  decide +kernel

end BlockScript
