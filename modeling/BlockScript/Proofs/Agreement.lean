import BlockScript.Proofs.Faithful

/-!
# Agreement on names

Analysis, folding and lowering look names up in different definitions: the analysis in what is
declared so far, folding and lowering in what the whole program declares. They take a name for the
same entity, unless the analysis took it for a readable property and the program declares the name
later. Folding replaces the names of constants and no others, and lowering makes of a name the
content that reports its entity.
-/

namespace BlockScript

variable {out stmts : List Stmt}

open List Stmt

/-- A name in an expression of a program: the function around, the node and the name. -/
structure Identifier where
  function : Option String
  id : Nat
  name : String
  deriving DecidableEq

/-- The names at some nodes in a function, or outside of all functions. -/
def Identifier.within (function : Option String) (names : List (Nat × String)) : List Identifier :=
  names.map fun p => ⟨function, p.1, p.2⟩

mutual

/-- The names in the expressions of a statement. -/
def Stmt.identifiers (function : Option String) : Stmt → List Identifier
  | .varDecl _ _ value _ _ => Identifier.within function (value.toList.flatMap Expr.names)
  | .constDecl _ _ value _ => Identifier.within function value.names
  | .funcDecl name _ body _ _ => identifiersAll (some name) body
  | .event _ _ param body _ _ =>
    Identifier.within function (param.toList.flatMap Expr.names) ++ identifiersAll function body
  | .call _ args _ => Identifier.within function (Expr.namesAll args)
  | .assign _ _ value _ => Identifier.within function value.names
  | .branch condition thenBody elseBody _ => Identifier.within function condition.names ++
      (identifiersAll function thenBody ++ identifiersAll function elseBody)
  | .loop kind body _ => Identifier.within function kind.names ++ identifiersAll function body

/-- The names in the expressions of statements. -/
def Stmt.identifiersAll (function : Option String) : List Stmt → List Identifier
  | [] => []
  | stmt :: rest => stmt.identifiers function ++ identifiersAll function rest

end

/-- Whether an entity is a readable property. -/
def Entity.isReporter : Entity → Bool
  | .reporter .. => true
  | _ => false

private theorem Stmt.mem_identifiersAll {function : Option String} {p : Identifier} :
    p ∈ identifiersAll function stmts ↔ ∃ stmt ∈ stmts, p ∈ stmt.identifiers function := by
  induction stmts with
  | nil => simp [identifiersAll]
  | cons stmt rest ih => simp [identifiersAll, ih]

private theorem Identifier.mem_within {function : Option String} {names : List (Nat × String)}
    {p : Identifier} :
    p ∈ within function names ↔ p.function = function ∧ (p.id, p.name) ∈ names := by
  obtain ⟨function', id, name⟩ := p
  simp only [within, mem_map, Identifier.mk.injEq]
  constructor
  · rintro ⟨q, hq, rfl, rfl, rfl⟩
    exact ⟨rfl, hq⟩
  · rintro ⟨rfl, hq⟩
    exact ⟨(id, name), hq, rfl, rfl, rfl⟩

namespace Expr

variable {c : FoldContext}

private theorem names_eq_nil_of_value? {v : Value} : ∀ {e : Expr}, e.value? = some v → e.names = []
  | .literal .., _ => rfl
  | .group _ inner, h => names_eq_nil_of_value? (e := inner) h
  | .ident .., h | .call .., h | .cast .., h | .list .., h | .not .., h
  | .binary .., h => by cases h

private theorem names_of_items? {items : List Expr} :
    ∀ {e : Expr}, e.items? = some items → e.names = namesAll items
  | .list .., h => by
    cases h
    rfl
  | .group _ inner, h => names_of_items? (e := inner) h
  | .ident .., h | .literal .., h | .call .., h | .cast .., h | .not .., h
  | .binary .., h => by cases h

private theorem namesAll_eq (es : List Expr) : namesAll es = es.flatMap names := by
  induction es with
  | nil => rfl
  | cons e rest ih => rw [namesAll, ih, flatMap_cons]

private theorem names_initial (e : Expr) : e.initial.flatMap names = e.names := by
  unfold initial
  cases hitems : e.items? with
  | none => simp
  | some items => rw [names_of_items? hitems, namesAll_eq, Option.getD_some]

private theorem names_literalOr {tag : Tag} {value : Option Value} {e : Expr}
    (h : ∀ v, value = some v → e.names = []) : (literalOr tag value e).names = e.names := by
  cases value with
  | none => rfl
  | some v => exact (h v rfl).symm

mutual

/-- The names that are left in a folded expression are those that are not known. -/
theorem names_fold (c : FoldContext) :
    ∀ e : Expr, (e.fold c).names = e.names.filter fun p => (c.known? p.2).isNone
  | .ident tag name => by
    rw [fold, names]
    cases h : c.known? name <;> simp [literalOr, names, h]
  | .literal _ _ => by rw [fold, names, filter_nil]
  | .call tag callee args => by
    rw [fold, names_literalOr, names, names, namesAll_foldAll c args]
    intro v hv
    unfold callValue? at hv
    split at hv
    · rename_i x hargs
      obtain ⟨arg, rest, hcons, hvalue, hrest⟩ := map_eq_cons_iff.mp hargs
      obtain rfl := map_eq_nil_iff.mp hrest
      rw [names, hcons, namesAll, namesAll, names_eq_nil_of_value? hvalue, nil_append]
    · cases hv
  | .cast tag target operand => by
    rw [fold, names_literalOr, names, names, names_fold c operand]
    intro v hv
    obtain ⟨value, hvalue, _⟩ := Option.bind_eq_some_iff.mp hv
    rw [names, names_eq_nil_of_value? hvalue]
  | .list tag items => by rw [fold, names, names, namesAll_foldAll c items]
  | .not tag operand => by
    rw [fold, names_literalOr, names, names, names_fold c operand]
    intro v hv
    unfold notValue? at hv
    split at hv
    · rename_i b hvalue
      rw [names, names_eq_nil_of_value? hvalue]
    · cases hv
  | .binary tag op left right => by
    rw [fold, names_literalOr, names, names, names_fold c left, names_fold c right, filter_append]
    intro v hv
    unfold binaryValue? at hv
    split at hv
    · rename_i l r hleft hright
      rw [names, names_eq_nil_of_value? hleft, names_eq_nil_of_value? hright, nil_append]
    · cases hv
  | .group tag inner => by
    rw [fold, names_literalOr, names, names, names_fold c inner]
    intro v hv
    rw [names, names_eq_nil_of_value? hv]

private theorem namesAll_foldAll (c : FoldContext) : ∀ es : List Expr,
    namesAll (foldAll c es) = (namesAll es).filter fun p => (c.known? p.2).isNone
  | [] => rfl
  | e :: rest => by
    rw [foldAll, namesAll, namesAll, filter_append, names_fold c e, namesAll_foldAll c rest]

end

end Expr

private theorem within_flatMap (function : Option String) (es : List Expr) :
    Identifier.within function (es.flatMap Expr.names) =
      (es.map (function, ·)).flatMap fun p => Identifier.within p.1 p.2.names := by
  simp [Identifier.within, map_flatMap, flatMap_map]

mutual

private theorem Stmt.identifiers_eq (function : Option String) :
    ∀ stmt : Stmt, stmt.identifiers function = (stmt.exprs function).flatMap fun p =>
      Identifier.within p.1 p.2.names
  | .varDecl _ _ value _ _ => by
    rw [identifiers, exprs, ← within_flatMap]
    cases value <;> simp [Expr.names_initial]
  | .constDecl .. | .assign .. => by simp [identifiers, exprs]
  | .funcDecl _ _ body _ _ => identifiersAll_eq _ body
  | .event _ _ param body _ _ => by
    rw [identifiers, exprs, flatMap_append, ← within_flatMap, identifiersAll_eq function body]
  | .call _ args _ => by rw [identifiers, exprs, ← within_flatMap, Expr.namesAll_eq]
  | .branch condition thenBody elseBody _ => by
    rw [identifiers, exprs, flatMap_cons, flatMap_append, identifiersAll_eq function thenBody,
      identifiersAll_eq function elseBody]
  | .loop kind body _ => by
    rw [identifiers, exprs, flatMap_append, ← within_flatMap, identifiersAll_eq function body]
    cases kind <;> simp [LoopKind.names, LoopKind.exprs]

private theorem Stmt.identifiersAll_eq (function : Option String) :
    ∀ stmts : List Stmt, identifiersAll function stmts = (exprsAll function stmts).flatMap fun p =>
      Identifier.within p.1 p.2.names
  | [] => rfl
  | stmt :: rest => by
    rw [identifiersAll, exprsAll, flatMap_append, identifiers_eq function stmt,
      identifiersAll_eq function rest]

end

namespace Finished

variable {w : Finished} {function : Option String} {params passed : List String} {d : Definitions}
  {c : FoldContext}

/-- What makes all stages agree on names: no name that was resolved to a readable property is
declared as a variable, a list or a constant. -/
structure Alike (w : Finished) : Prop where
  consistent : w.Consistent Value.Fits
  unhidden : ∀ use, w.resolved use → use.entity.isReporter = true → w.defs.entity? use.name = none
  unique : ∀ use use', w.resolved use → w.resolved use' → use.id = use'.id → use = use'

/-- Whether a name was resolved to a constant. -/
def IsConstant (w : Finished) (p : Identifier) : Prop :=
  ∃ k, w.resolved ⟨p.function, p.id, p.name, .constant k⟩

private theorem Alike.known?_eq_none_iff (h : w.Alike) (haround : w.Around function params)
    (hfit : w.Fit Value.Fits passed d) {id : Nat} {name : String} {entity : Entity}
    (hdenotes : (w.typing function passed).denotes id name entity) :
    (c.within d params).known? name = none ↔ ¬ w.IsConstant ⟨function, id, name⟩ := by
  obtain ⟨hden, hpassed⟩ := hdenotes
  constructor
  · rintro hnone ⟨k, hk⟩
    cases h.unique _ _ hk hden rfl
    exact known?_ne_none h.consistent haround hfit ⟨hden, hpassed⟩ hnone
  · intro hconst
    by_contra hne
    obtain ⟨value, hknown⟩ := Option.ne_none_iff_exists'.mp hne
    obtain ⟨_, k, _, hent, rfl | ⟨signature, type, rfl⟩⟩ :=
      denoted_of_known? h.consistent haround hfit.lookup hden hknown
    · exact hconst ⟨k, hden⟩
    · cases (h.unhidden _ hden rfl).symm.trans hent

/-- Whether all names of one list were resolved, and those that were resolved to constants are
missing in another. -/
structure Leaves (w : Finished) (before after : List Identifier) : Prop where
  resolved : ∀ p ∈ before, ∃ entity, w.resolved ⟨p.function, p.id, p.name, entity⟩
  left : ∀ p, p ∈ after ↔ p ∈ before ∧ ¬ w.IsConstant p

namespace Leaves

variable {before after before' after' : List Identifier}

private theorem nil : w.Leaves [] [] := ⟨nofun, by simp⟩

private theorem append (h : w.Leaves before after) (h' : w.Leaves before' after') :
    w.Leaves (before ++ before') (after ++ after') where
  resolved := forall_mem_append.mpr ⟨h.resolved, h'.resolved⟩
  left p := by rw [mem_append, mem_append, h.left, h'.left, ← or_and_right]

end Leaves

private theorem Alike.leaves_filter (h : w.Alike) (haround : w.Around function params)
    (hfit : w.Fit Value.Fits passed d) {names : List (Nat × String)}
    (hnames : ∀ p ∈ names, ∃ entity, (w.typing function passed).denotes p.1 p.2 entity) :
    w.Leaves (Identifier.within function names) (Identifier.within function
      (names.filter fun p => ((c.within d params).known? p.2).isNone)) where
  resolved p hp := by
    obtain ⟨rfl, hmem⟩ := Identifier.mem_within.mp hp
    obtain ⟨entity, hden, _⟩ := hnames _ hmem
    exact ⟨entity, hden⟩
  left p := by
    rw [Identifier.mem_within, Identifier.mem_within, mem_filter, and_assoc]
    refine and_congr_right fun hfun => and_congr_right fun hmem => ?_
    subst hfun
    obtain ⟨entity, hdenotes⟩ := hnames _ hmem
    rw [Option.isNone_iff_eq_none]
    exact h.known?_eq_none_iff haround hfit hdenotes

private theorem Alike.leaves_exprs (h : w.Alike) {ps qs : List (Option String × Expr)}
    (hfolds : Forall₂ (w.Folds Value.Fits c) ps qs) :
    w.Leaves (ps.flatMap fun p => Identifier.within p.1 p.2.names)
      (qs.flatMap fun q => Identifier.within q.1 q.2.names) := by
  induction hfolds with
  | nil => exact .nil
  | @cons p q ps qs hfirst _ ih =>
    obtain ⟨hfun, params, passed, type, haround, htyped, d, hfit, hout, _⟩ := hfirst
    refine Leaves.append ?_ ih
    dsimp only
    rw [hfun, hout, Expr.names_fold]
    refine h.leaves_filter haround hfit fun p hp => ?_
    obtain ⟨entity, hdenotes, _⟩ := htyped.names p hp
    exact ⟨entity, hdenotes⟩

private theorem Alike.leaves_body (h : w.Alike) (hacc : Stmt.AcceptedAll w none passed stmts)
    (hfolds : Stmt.FoldsAll c (w.Fit Value.Fits) [] passed stmts out) :
    w.Leaves (identifiersAll none stmts) (identifiersAll none out) := by
  rw [identifiersAll_eq, identifiersAll_eq]
  exact h.leaves_exprs (folds_exprsAll around_none hacc hfolds)

private theorem Alike.leaves_items (h : w.Alike) {items : List Stmt}
    (haccepts : w.AcceptsItems items) (hfolds : Stmt.ItemsFold c (w.Fit Value.Fits) items out) :
    w.Leaves (identifiersAll none items) (identifiersAll none out) := by
  have hall := (h.leaves_body haccepts.constants hfolds.constants).append
    (h.leaves_body haccepts.others hfolds.others)
  -- Every item is either a constant of the outermost level or one of the others.
  have hsplit (stmts : List Stmt) (p : Identifier) : p ∈ identifiersAll none stmts ↔
      p ∈ identifiersAll none (stmts.filter isConstant) ++ identifiersAll none
      (stmts.filter isOther) := by
    simp only [mem_append, mem_identifiersAll, mem_filter, isOther]
    grind
  refine ⟨fun p hp => hall.resolved p ((hsplit items p).mp hp), fun p => ?_⟩
  rw [hsplit out, hall.left, ← hsplit items]

/-- Lowering makes of a name the content that reports what it was resolved to. -/
theorem Consistent.reports_lowerName {fits : Value → DataType → Prop} (h : w.Consistent fits)
    (hready : w.Ready d) {use : Resolution} (huse : w.resolved use)
    (hunhidden : use.entity.isReporter → w.defs.entity? use.name = none) (span : Span) :
    use.entity.Reports d use.name ((w.lowering d use.function).lowerName use.name span) := by
  have hvalues : ∀ name, (w.lowering d use.function).defs.lookup .constant name ≠ none →
      (w.lowering d use.function).defs.value? name ≠ none := hready.valued.values
  refine LowerContext.reports_lowerName hvalues ?_ span
  rw [hready.valued.entity?_eq]
  have hhas := (h.supports use huse).has
  unfold LowerContext.entity?
  cases hent : use.entity with
  | param p =>
    rw [hent] at hhas
    rw [show (w.context use.function).param? use.name = some p from hhas]
  | scalar v | list l | constant k =>
    rw [hent] at hhas
    rw [hhas.1, hhas.2]
    rfl
  | reporter signature type =>
    rw [hent] at hhas hunhidden
    rw [hhas.1, hhas.2, show (w.context use.function).defs.entity? use.name =
      none from hunhidden rfl]
    rfl

/-- Analysis, folding and lowering of an accepted program agree on its names. -/
theorem Accepts.agree {program : Program} (h : w.Accepts program.statements)
    (hnums : w.catalog.ComputesNumbers)
    (hunhidden : ∀ use, w.resolved use → use.entity.isReporter → w.defs.entity? use.name = none)
    {pictures : Pictures} (hclean : (program.fold w.catalog w.types pictures w.defs).errors = [])
    {p : Identifier} (hp : p ∈ identifiersAll none program.statements) :
    let folding := program.fold w.catalog w.types pictures w.defs
    ∃ entity, w.resolved ⟨p.function, p.id, p.name, entity⟩ ∧
      (∀ use, w.resolved use → use.id = p.id → use.entity = entity) ∧
      w.types.get? p.id = some entity.type ∧
      (p ∈ identifiersAll none folding.program.statements ↔ ∀ k, entity ≠ .constant k) ∧
      (∀ span, entity.Reports folding.defs p.name
        ((w.lowering folding.defs p.function).lowerName p.name span)) ∧
      ∀ k, entity = .constant k → ∃ value, folding.defs.value? p.name = some value ∧
          value.Fits k.type := by
  intro folding
  have hhides : w.HidesFittingly Value.Fits := by
    intro use huse signature type hent hconst
    obtain ⟨k, _, hdecl⟩ := Definitions.exists_constant h.distinct hconst
    cases (hunhidden use huse (by rw [hent]; rfl)).symm.trans hdecl
  have hconsistent : w.Consistent Value.Fits :=
    ⟨Value.fitting_fits, hnums, h.supports, h.distinct, hhides⟩
  have halike : w.Alike := ⟨hconsistent, hunhidden, h.unique⟩
  obtain ⟨hfolds, hfit⟩ := fold_fits (hconsistent.findsFitting _) h.accepted hclean
  have hleaves := halike.leaves_items h.accepted hfolds
  obtain ⟨entity, hden⟩ := hleaves.resolved p hp
  have hconst : w.IsConstant p ↔ ∃ k, entity = .constant k := by
    constructor
    · rintro ⟨k, hk⟩
      cases h.unique _ _ hk hden rfl
      exact ⟨k, rfl⟩
    · rintro ⟨k, rfl⟩
      exact ⟨k, hden⟩
  refine ⟨entity, hden, fun use huse hid => ?_, (h.supports _ hden).type, ?_,
    hconsistent.reports_lowerName (h.ready_fold pictures hclean) hden (hunhidden _ hden), ?_⟩
  · rw [h.unique use _ huse hden hid]
  · rw [hleaves.left p, hconst, and_iff_right hp, not_exists]
  · rintro k rfl
    obtain ⟨_, hlook⟩ := lookup_of_resolved hconsistent hden
    exact hfit.values p.name (h.constants p.name (by simp [hlook])) k hlook

end Finished

/-- All stages of a compilation for the robot agree on the names in a program, as long as the
program declares no variable, list or constant with the name of a property that is read. Every name
in an expression of the analyzed program was resolved, to one entity, and the type of the entity is
recorded for it. Folding leaves the name where it is, unless the entity is a constant. Lowering
makes of the name the content that reports the entity; that of a constant is its value, which has
the type of the constant. -/
theorem compile_resolves_alike {path : String} {pictures : Pictures} {options : CompileOptions}
    {source : Source} {result : Compilation}
    (h : compile path Robot.catalog pictures options source = .ok result) :
    ∃ st, stagesOf path Robot.catalog pictures options.defines options.analysis source = .ok st ∧
      let uses := resolutions Robot.catalog options.analysis st.parsed.program
      let d := st.folding.defs
      ((∀ use ∈ uses, use.entity.isReporter = true → st.analysis.defs.entity? use.name = none) →
        ∀ p ∈ Stmt.identifiersAll none st.analysis.program.statements,
          ∃ entity, ⟨p.function, p.id, p.name, entity⟩ ∈ uses ∧
            (∀ use ∈ uses, use.id = p.id → use.entity = entity) ∧
            st.analysis.types.get? p.id = some entity.type ∧
            (p ∈ Stmt.identifiersAll none st.folding.program.statements ↔
              ∀ k, entity ≠ .constant k) ∧
            (∀ span, entity.Reports d p.name
              ({ st.lowerContext Robot.catalog with
                function := p.function.bind d.functions.get? }.lowerName p.name span)) ∧
            ∀ k, entity = .constant k →
              ∃ value, d.value? p.name = some value ∧ value.Fits k.type) := by
  obtain ⟨st, hst, hclean, _⟩ := blocks_of_compile h
  obtain ⟨macros, tokens, _, rfl⟩ := stagesOf_eq_ok_iff.mp hst
  obtain ⟨haccepts, hfolding⟩ := hclean.accepts Robot.complete
  exact ⟨_, hst, fun hunhidden p hp => haccepts.agree Robot.computesNumbers hunhidden hfolding hp⟩

/-- A program with names of all kinds: a constant, a variable, a list, a parameter and a
property. -/
def namesOfAllKinds : Source :=
  Source.ofText <| "const gap = 2\nvar n = 0\nvar marks = [1, 2]\nfunc go(size: number):\n" ++
    "  drive.move(size * gap + n)\n@start:\n  go(timer)\n  display.show(string(marks))\n"

/-- All stages agree on them. -/
theorem compile_resolves_alike_namesOfAllKinds :
    ∃ result st, compile "main.bot" Robot.catalog noPictures {} namesOfAllKinds = .ok result ∧
      stagesOf "main.bot" Robot.catalog noPictures [] {} namesOfAllKinds = .ok st ∧
      (Stmt.identifiersAll none st.analysis.program.statements).map Identifier.name =
      ["size", "gap", "n", "timer", "marks"] ∧
      (Stmt.identifiersAll none st.folding.program.statements).map Identifier.name =
      ["size", "n", "timer", "marks"] ∧
      ∀ p ∈ Stmt.identifiersAll none st.analysis.program.statements, ∃ entity,
      ⟨p.function, p.id, p.name, entity⟩ ∈ resolutions Robot.catalog {} st.parsed.program ∧
      st.analysis.types.get? p.id = some entity.type ∧
      (p ∈ Stmt.identifiersAll none st.folding.program.statements ↔ ∀ k, entity ≠ .constant k) := by
  have hcompiles : (compile "main.bot" Robot.catalog noPictures {} namesOfAllKinds).toOption.any
      (fun _ => true) = true := by decide +kernel
  have hany : (stagesOf "main.bot" Robot.catalog noPictures [] {} namesOfAllKinds).toOption.any
      (fun st => (resolutions Robot.catalog {} st.parsed.program).all (fun use =>
          !use.entity.isReporter || (st.analysis.defs.entity? use.name).isNone) &&
        (Stmt.identifiersAll none st.analysis.program.statements).map Identifier.name ==
          ["size", "gap", "n", "timer", "marks"] &&
        (Stmt.identifiersAll none st.folding.program.statements).map Identifier.name ==
          ["size", "n", "timer", "marks"]) = true := by decide +kernel
  obtain ⟨result, hres, _⟩ := exists_of_toOption_any hcompiles
  obtain ⟨st, hst, hfacts⟩ := exists_of_toOption_any hany
  obtain ⟨st', hst', halike⟩ := compile_resolves_alike hres
  cases hst.symm.trans hst'
  simp only [Bool.and_eq_true, beq_iff_eq, List.all_eq_true, Bool.or_eq_true, Bool.not_eq_true',
    Option.isNone_iff_eq_none] at hfacts
  refine ⟨result, st, hres, hst, hfacts.1.2, hfacts.2, fun p hp => ?_⟩
  have hunhidden : ∀ use ∈ resolutions Robot.catalog {} st.parsed.program,
      use.entity.isReporter = true → st.analysis.defs.entity? use.name = none :=
    fun use huse hrep => (hfacts.1.1 use huse).resolve_left (by simp [hrep])
  obtain ⟨entity, hden, _, htype, hleft, _⟩ := halike hunhidden p hp
  exact ⟨entity, hden, htype, hleft⟩

/-- A property that is read in one body, and a variable with its name that another body declares. -/
def timerHidden : Source :=
  Source.ofText
    "@start:\n  display.show(timer)\n@button \"a\":\n  var timer = \"hi\"\n  display.show(timer)\n"

/-- The analysis takes the name for a number that the robot measures. Lowering takes it for a text,
and there is no block that measures. -/
theorem resolved_apart_timerHidden :
    (stagesOf "main.bot" Robot.catalog noPictures [] {} timerHidden).toOption.any (fun st =>
      ((resolutions Robot.catalog {} st.parsed.program).map fun use =>
        (use.entity.isReporter, use.entity.type)) == [(true, .number), (false, .string)]) = true ∧
    (compile "main.bot" Robot.catalog noPictures {} timerHidden).toOption.any (fun result =>
      result.graph.nodes.all fun node => node.face.opcode != "sensing_timer") = true := by
  decide +kernel

end BlockScript
