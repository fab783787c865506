import BlockScript.Proofs.Chains
import BlockScript.Proofs.Hoisting

/-!
# Unreachable code

The analysis warns of what comes after a statement that control never passes, and lowering drops it.
The analysis looks at the statements as they are written, while it resolves calls and before it
hoists initializers; lowering looks at what hoisting and folding have made of them, and resolves
calls again. They agree on where control stops, so in every body that is lowered the statements
without a warning are those that have blocks.
-/

namespace BlockScript

open List

variable {c c' : LowerContext} {first : Nat} {types : TypeTable} {stmt out : Stmt}
  {stmts written outs body group items assigns : List Stmt}

/-- The bodies that a statement of a body runs. -/
def Stmt.bodies : Stmt → List (List Stmt)
  | .branch _ thenBody elseBody _ => [thenBody, elseBody]
  | .loop _ body _ => [body]
  | _ => []

namespace LowerContext

/-- The statements of a body up to the first that control never passes. -/
def reached (c : LowerContext) : List Stmt → List Stmt
  | [] => []
  | stmt :: rest => stmt :: if c.stops stmt then [] else reached c rest

/-- Whether a statement as it is written has the blocks of some statements: of those that stand for
it once its initializer has been hoisted and all has been folded. A list and a constant have none,
and a variable has the assignment of its initializer. -/
def Becomes (c : LowerContext) (first : Nat) (stmt : Stmt) (group : List Stmt) : Prop :=
  ∃ outs folded, stmt.HoistsTo c.types first outs ∧ Stmt.PrunedAll outs folded ∧
    group = c.emitted folded

/-- The bodies of a program as it is written that are emitted: those of its handlers and functions,
and those of the statements that control reaches in such a body. -/
inductive EmitsBody (c : LowerContext) (program : Program) : List Stmt → Prop
  | event {kind : EventKind} {name : String} {param : Option Expr} {body : List Stmt} {span : Span}
      {endLine : Nat} (hitem : .event kind name param body span endLine ∈ program.statements) :
      EmitsBody c program body
  | function {name : String} {params : List Parameter} {body : List Stmt} {span : Span}
      {endLine : Nat} (hitem : .funcDecl name params body span endLine ∈ program.statements) :
      EmitsBody c program body
  | nested {body inner : List Stmt} {stmt : Stmt} (hbody : EmitsBody c program body)
      (hstmt : stmt ∈ c.reached body) (hinner : inner ∈ stmt.bodies) : EmitsBody c program inner

private theorem unreachedAll_true (c : LowerContext) (body : List Stmt) :
    c.unreachedAll true body = body.flatMap fun stmt => stmt :: c.unreached stmt := by
  induction body with
  | nil => rfl
  | cons stmt rest ih => simp [unreachedAll, ih]

private theorem unreachedAll_false (c : LowerContext) (body : List Stmt) :
    c.unreachedAll false body = (c.reached body).flatMap c.unreached ++
      (body.drop (c.reached body).length).flatMap fun stmt => stmt :: c.unreached stmt := by
  induction body with
  | nil => rfl
  | cons stmt rest ih =>
    cases hstops : c.stops stmt with
    | true => simp [unreachedAll, reached, hstops, unreachedAll_true]
    | false => simp [unreachedAll, reached, hstops, ih]

private theorem stops_congr (hcat : c'.catalog = c.catalog) (htypes : c'.types = c.types)
    (hlook : c'.defs.lookup = c.defs.lookup) : c'.stops = c.stops := by
  have hcontains (d : Definitions) (name : String) :
      (d.functions.contains name || d.events.contains name) =
      ((d.lookup .function name).isSome || (d.lookup .event name).isSome) := by
    simp [Definitions.lookup, Table.contains]
  funext stmt
  cases stmt with
  | call name args span => simp only [stops, signature, hcontains, hlook, hcat, htypes]
  | _ => rfl

mutual

private theorem unreached_congr (h : c'.stops = c.stops) :
    ∀ stmt : Stmt, c'.unreached stmt = c.unreached stmt
  | .funcDecl _ _ body _ _ | .event _ _ _ body _ _ | .loop _ body _ =>
    unreachedAll_congr h false body
  | .branch _ thenBody elseBody _ => congrArg₂ (· ++ ·) (unreachedAll_congr h false thenBody)
      (unreachedAll_congr h false elseBody)
  | .varDecl .. | .constDecl .. | .call .. | .assign .. => rfl

private theorem unreachedAll_congr (h : c'.stops = c.stops) (stopped : Bool) : ∀ body : List Stmt,
    c'.unreachedAll stopped body = c.unreachedAll stopped body
  | [] => rfl
  | stmt :: rest => by
    rw [unreachedAll, unreachedAll, unreached_congr h stmt, h, unreachedAll_congr h _ rest]

end

private theorem emitted_append (body more : List Stmt) :
    c.emitted (body ++ more) = c.emitted body ++
    if body.any c.stops then [] else c.emitted more := by
  induction body with
  | nil => rfl
  | cons stmt rest ih =>
    cases hstops : c.stops stmt with
    | true => simp [emitted, hstops, isDeclaration_of_stops hstops]
    | false =>
      simp only [cons_append, emitted, ih, any_cons, hstops, Bool.false_or]
      split <;> rfl

private theorem mem_emitted_singleton (h : out.isDeclaration = false) : out ∈ c.emitted [out] := by
  simp [emitted, h]

private theorem emitted_function (function : Option Function) (body : List Stmt) :
    { c with function }.emitted body = c.emitted body := by
  induction body with
  | nil => rfl
  | cons stmt rest ih =>
    rw [emitted, emitted, ih]
    rfl

private theorem stops_of_pruned (h : stmt.Pruned out) : c.stops out = c.stops stmt := by
  cases h with
  | call name h span => simp only [stops, signature, h.mapM_recorded]
  | loop hkind => cases hkind <;> rfl
  | _ => rfl

private theorem any_stops_of_pruned (h : Stmt.PrunedAll stmts outs) :
    outs.any c.stops = stmts.any c.stops := by
  induction stmts generalizing outs with
  | nil =>
    cases h
    rfl
  | cons stmt rest ih =>
    cases h with | cons hfirst hrest =>
    rw [any_cons, any_cons, stops_of_pruned hfirst, ih hrest]

private theorem any_stops_of_hoists (h : stmt.HoistsTo types first outs) :
    outs.any c.stops = c.stops stmt := by
  cases stmt with
  | varDecl name type value hoisted span =>
    rw [Stmt.HoistsTo] at h
    split at h
    · rw [h]
      rfl
    · obtain ⟨_, _, _, rfl⟩ := h
      rfl
  | branch condition thenBody elseBody span =>
    obtain ⟨_, _, _, _, rfl⟩ := h
    rfl
  | loop kind body span =>
    obtain ⟨_, _, rfl⟩ := h
    exact Bool.or_false _
  | _ =>
    obtain rfl := h
    exact Bool.or_false _

end LowerContext

private theorem Stmt.PrunedAll.exists_append {more : List Stmt}
    (h : PrunedAll (stmts ++ more) outs) :
    ∃ folded others, outs = folded ++ others ∧ PrunedAll stmts folded ∧ PrunedAll more others := by
  induction stmts generalizing outs with
  | nil => exact ⟨[], outs, rfl, .nil, h⟩
  | cons stmt rest ih =>
    cases h with | cons hfirst hrest =>
    obtain ⟨folded, others, rfl, hfolded, hothers⟩ := ih hrest
    exact ⟨_ :: folded, others, rfl, .cons hfirst hfolded, hothers⟩

private theorem Stmt.PrunedAll.exists_mem (h : PrunedAll stmts outs) (hstmt : stmt ∈ stmts) :
    ∃ out ∈ outs, stmt.Pruned out := by
  obtain ⟨before, after, rfl⟩ := append_of_mem hstmt
  obtain ⟨_, _, rfl, _, hafter⟩ := h.exists_append
  cases hafter with | cons hout =>
  exact ⟨_, mem_append_right _ mem_cons_self, hout⟩

private theorem Stmt.HoistsItems.exists_mem {item : Stmt}
    (h : HoistsItems types first items outs assigns) (hitem : item ∈ items) :
    ∃ out ∈ outs, ∃ own, item.HoistsItem types first out own := by
  induction items generalizing outs assigns with
  | nil => cases hitem
  | cons other rest ih =>
    obtain ⟨out, more, own, others, hout, hmore, rfl, rfl⟩ := h
    obtain rfl | hitem := mem_cons.mp hitem
    · exact ⟨out, mem_cons_self, own, hout⟩
    · obtain ⟨out', hout', hhoists⟩ := ih hmore hitem
      exact ⟨out', mem_cons_of_mem _ hout', hhoists⟩

/-- The blocks of a body are those of the statements that are reached, one after another. -/
theorem LowerContext.exists_becomes (h : Stmt.HoistsAll c.types first written outs)
    (hpruned : Stmt.PrunedAll outs body) :
    ∃ groups, Forall₂ (c.Becomes first) (c.reached written) groups ∧
    c.emitted body = groups.flatten := by
  induction written generalizing outs body with
  | nil =>
    obtain rfl := h
    cases hpruned
    exact ⟨[], .nil, rfl⟩
  | cons stmt rest ih =>
    obtain ⟨head, more, hhead, hmore, rfl⟩ := h
    obtain ⟨folded, others, rfl, hfolded, hothers⟩ := hpruned.exists_append
    have hbecomes : c.Becomes first stmt (c.emitted folded) := ⟨head, folded, hhead, hfolded, rfl⟩
    rw [emitted_append, any_stops_of_pruned hfolded, any_stops_of_hoists hhead, reached]
    split
    · exact ⟨[_], .cons hbecomes .nil, by simp⟩
    · obtain ⟨groups, hgroups, heq⟩ := ih hmore hothers
      exact ⟨_ :: groups, .cons hbecomes hgroups, by rw [heq, flatten_cons]⟩

private theorem LowerContext.Becomes.exists_body {inner : List Stmt}
    (h : c.Becomes first stmt group) (hinner : inner ∈ stmt.bodies) :
    ∃ out ∈ group, ∃ body ∈ out.bodies, ∃ outs, Stmt.HoistsAll c.types first inner outs ∧
      Stmt.PrunedAll outs body := by
  obtain ⟨outs, folded, hhoists, hpruned, rfl⟩ := h
  cases stmt with
  | branch condition thenBody elseBody span =>
    obtain ⟨thenOut, elseOut, hthen, helse, rfl⟩ := hhoists
    cases hpruned with | cons hfirst hrest =>
    cases hrest
    cases hfirst with | branch _ hthen' helse' =>
    refine ⟨_, mem_emitted_singleton rfl, ?_⟩
    obtain rfl | hinner := mem_cons.mp hinner
    · exact ⟨_, mem_cons_self, thenOut, hthen, hthen'⟩
    · obtain rfl := mem_singleton.mp hinner
      exact ⟨_, mem_cons_of_mem _ mem_cons_self, elseOut, helse, helse'⟩
  | loop kind body span =>
    obtain ⟨bodyOut, hbody, rfl⟩ := hhoists
    cases hpruned with | cons hfirst hrest =>
    cases hrest
    cases hfirst with | loop _ hbody' =>
    obtain rfl := mem_singleton.mp hinner
    exact ⟨_, mem_emitted_singleton rfl, _, mem_cons_self, bodyOut, hbody, hbody'⟩
  | _ => cases hinner

private theorem exists_mem_zip_of_forall₂ {α β : Type} {R : α → β → Prop} {xs : List α}
    {ys : List β} (h : Forall₂ R xs ys) {x : α} (hx : x ∈ xs) :
    ∃ y, (x, y) ∈ xs.zip ys ∧ R x y := by
  induction h with
  | nil => cases hx
  | cons hfirst _ ih =>
    obtain rfl | hx := mem_cons.mp hx
    · exact ⟨_, mem_cons_self, hfirst⟩
    · obtain ⟨y, hmem, hy⟩ := ih hx
      exact ⟨y, mem_cons_of_mem _ hmem, hy⟩

namespace Graph

variable {g : Graph} {program : Program}

private theorem BodyAt.nested {start : Option Input} {ids : List Nat} {inner : List Stmt}
    (hbody : BodyAt g c program c' body start) (hchain : g.IsChain start ids)
    (hids : Forall₂ (g.Lowers c') (c'.emitted body) ids) (hout : out ∈ c'.emitted body)
    (hinner : inner ∈ out.bodies) : ∃ start', BodyAt g c program c' inner start' := by
  obtain ⟨id, hzip, _, _, node, hnode, _⟩ := exists_mem_zip_of_forall₂ hids hout
  cases out with
  | branch condition thenBody elseBody span =>
    obtain rfl | hinner := mem_cons.mp hinner
    · exact ⟨_, .thenBody hbody hchain hzip hnode⟩
    · obtain rfl := mem_singleton.mp hinner
      exact ⟨_, .elseBody hbody hchain hzip hnode⟩
  | loop kind body span =>
    obtain rfl := mem_singleton.mp hinner
    exact ⟨_, .loop hbody hchain hzip hnode⟩
  | _ => cases hinner

end Graph

/-- Each body that is emitted begins a chain of the blocks of the statements that are reached in
it. -/
theorem LowerContext.EmitsBody.exists_bodyAt {g : Graph} {parsed program : Program}
    {startup analyzed : List Stmt} (hheads : Forall₂ (g.Heads c) program.scripts g.tops)
    (hchains : ∀ c' body start, g.BodyAt c program c' body start →
      ∃ ids, g.IsChain start ids ∧ Forall₂ (g.Lowers c') (c'.emitted body) ids)
    (hhoists : Stmt.HoistsItems c.types first parsed.statements analyzed assigns)
    (heq : items = startup ++ analyzed) (hpruned : Stmt.PrunedAll items program.statements)
    (h : c.EmitsBody parsed written) :
      ∃ function body start, g.BodyAt c program { c with function } body start ∧
      ∃ outs, Stmt.HoistsAll c.types first written outs ∧ Stmt.PrunedAll outs body := by
  subst heq
  induction h with
  | event hitem =>
    obtain ⟨out, hout, own, outs, houts, rfl, _⟩ := hhoists.exists_mem hitem
    obtain ⟨out', hout', hitem'⟩ := hpruned.exists_mem (mem_append_right startup hout)
    cases hitem' with | event _ _ _ hbody =>
    obtain ⟨top, hzip, _, _, node, hnode, _⟩ :=
      exists_mem_zip_of_forall₂ hheads (mem_filter.mpr ⟨hout', rfl⟩)
    exact ⟨c.function, _, _, .event hzip hnode, outs, houts, hbody⟩
  | function hitem =>
    obtain ⟨out, hout, own, outs, houts, rfl, _⟩ := hhoists.exists_mem hitem
    obtain ⟨out', hout', hitem'⟩ := hpruned.exists_mem (mem_append_right startup hout)
    cases hitem' with | funcDecl _ _ hbody =>
    obtain ⟨top, hzip, head, hhead, node, hnode, _, hbeg⟩ :=
      exists_mem_zip_of_forall₂ hheads (mem_filter.mpr ⟨hout', rfl⟩)
    cases hhead
    obtain ⟨f, hf, _⟩ := hbeg
    exact ⟨some f, _, _, .function hzip hf hnode, outs, houts, hbody⟩
  | nested _ hstmt hinner ih =>
    obtain ⟨function, body, start, hbody, outs, houts, houts'⟩ := ih
    obtain ⟨ids, hchain, hids⟩ := hchains _ body start hbody
    obtain ⟨groups, hgroups, heq⟩ := exists_becomes houts houts'
    obtain ⟨group, hzip, hbecomes⟩ := exists_mem_zip_of_forall₂ hgroups hstmt
    obtain ⟨out, hout, inner, hinner, hparts⟩ := hbecomes.exists_body hinner
    have hmem : out ∈ { c with function }.emitted body := by
      rw [emitted_function, heq]
      exact mem_flatten.mpr ⟨group, (of_mem_zip hzip).2, hout⟩
    obtain ⟨start', hstart'⟩ := hbody.nested hchain hids hmem hinner
    exact ⟨function, inner, start', hstart', hparts⟩

private theorem Collected.warnings_eq {c : Collected} {strict : Bool}
    (h : (if strict then c.strict else c).errors = []) :
    (if strict then c.strict else c).warnings = c.warnings := by
  cases strict with
  | false => rfl
  | true => exact (map_eq_nil_iff.mp (append_eq_nil_iff.mp h).2).symm

private theorem Collected.warnings_add (c : Collected) {diagnostics : List Diagnostic}
    (h : ∀ d ∈ diagnostics, d.isError = false) :
    (c.add diagnostics).warnings = c.warnings ++ diagnostics :=
  congrArg (c.warnings ++ ·) (filter_eq_self.mpr fun d hd => by rw [h d hd, Bool.not_false])

section Compile

variable {path : String} {pictures : Pictures} {options : CompileOptions} {source : Source}
  {result : Compilation} {st : Stages}

private theorem warnings_of_compile
    (h : compile path Robot.catalog pictures options source = .ok result)
    (hst : stagesOf path Robot.catalog pictures options.defines options.analysis source = .ok st)
    (hclean : st.Clean) :
    result.warnings = (st.expansion.diagnostics ++ st.parsed.errors ++ st.analysis.warnings).map
      (·.inFile path) := by
  obtain ⟨macros, tokens, hscan, rfl⟩ := stagesOf_eq_ok_iff.mp hst
  have hlowering := hclean.lowering_errors Robot.complete
  obtain ⟨hana, hfolding⟩ := hclean.errors_eq_nil
  unfold compile at h
  dsimp only at h
  rw [hscan] at h
  unfold Stages.ofTokens at hana hfolding hlowering ⊢
  dsimp only at h hana hfolding hlowering ⊢
  simp only [hana, hfolding, hlowering, append_nil, Collected.check_bind_eq_ok_iff,
    Collected.errors_add_eq_nil_iff] at h
  obtain ⟨⟨_, hfirst⟩, ⟨_, hwarns⟩, _, hstrict, hres⟩ := h
  rw [← Except.ok.inj hres]
  refine congrArg (map (·.inFile path)) ((Collected.warnings_eq hstrict).trans ?_)
  rw [Collected.warnings_add _ (forall_mem_nil _), Collected.warnings_add _ (forall_mem_nil _),
    Collected.warnings_add _ hwarns, Collected.warnings_add _ hfirst, append_nil, append_nil,
    nil_append]

/-- Warnings of unreachable code and the code that is dropped are the same. A program that is
compiled for the robot draws one warning for each statement of a body that comes after one that
control never passes, and none for the others. Every body that is emitted is hoisted and folded to a
body of the program that is lowered. The chain of blocks at its beginning is that of the others, in
order. -/
theorem compile_unreached (h : compile path Robot.catalog pictures options source = .ok result)
    (hwarn : options.analysis.warnUnreachable = true) :
    ∃ st, stagesOf path Robot.catalog pictures options.defines options.analysis source = .ok st ∧
      let c := st.lowerContext Robot.catalog
      let parsed := st.parsed.program
      result.warnings = (st.expansion.diagnostics ++ st.parsed.errors ++
        ((c.unreachedAll false parsed.statements).map Stmt.unreachableWarning ++
          options.analysis.unusedWarnings st.analysis.defs)).map (·.inFile path) ∧
      (∀ body, c.unreachedAll false body = (c.reached body).flatMap c.unreached ++
        (body.drop (c.reached body).length).flatMap fun stmt => stmt :: c.unreached stmt) ∧
      ∀ body, c.EmitsBody parsed body → ∃ function outs folded start ids groups,
        Stmt.HoistsAll c.types parsed.nextId body outs ∧ Stmt.PrunedAll outs folded ∧
        result.graph.BodyAt c st.folding.program { c with function } folded start ∧
        result.graph.IsChain start ids ∧ Forall₂ (c.Becomes parsed.nextId) (c.reached body) groups ∧
        groups.flatten = c.emitted folded ∧
        Forall₂ (result.graph.Lowers { c with function }) groups.flatten ids := by
  obtain ⟨st, hst, hclean, hlow, hblocks⟩ := blocks_of_compile h
  obtain ⟨macros, tokens, _, rfl⟩ := stagesOf_eq_ok_iff.mp hst
  have herrs := hclean.errors_eq_nil.1
  refine ⟨_, hst, ?_, LowerContext.unreachedAll_false _, fun body hbody => ?_⟩
  · rw [warnings_of_compile h hst hclean]
    refine congrArg (fun warnings => map (Diagnostic.inFile · path) (_ ++ warnings))
      ((warnings_analyze (parse_parsed _) Robot.starts herrs).trans ?_)
    rw [AnalysisOptions.unreachableWarnings, if_pos hwarn]
    refine congrArg (map Stmt.unreachableWarning · ++ _)
      (LowerContext.unreachedAll_congr ?_ false _)
    exact LowerContext.stops_congr rfl rfl
      (Definitions.lookup_eq_of_bare_eq (Program.bare_fold ..)).symm
  · obtain ⟨s, hrun, _, hdefs, htypes⟩ := clean_of_errors_analyze herrs
    obtain ⟨analyzed, assigns, hhoists, heq, _⟩ := Analyzer.hoists_program (parse_parsed _) hrun
      (hdefs ▸ (wellFormed_analyze ..).distinct)
    rw [← htypes] at hhoists
    rw [hblocks]
    have hchains c' body start (hbody : Graph.BodyAt _ _ _ c' body start) := hbody.chain hlow
    obtain ⟨function, folded, start, hstart, outs, houts, hfolded⟩ :=
      hbody.exists_bodyAt (Graph.forall₂_heads_tops hlow) hchains hhoists heq
        (Program.prunedAll_fold (P := fun _ => True) (Stmt.allOf_true _)).1
    obtain ⟨ids, hchain, hids⟩ := hchains _ _ _ hstart
    obtain ⟨groups, hgroups, hemitted⟩ := LowerContext.exists_becomes houts hfolded
    rw [LowerContext.emitted_function, hemitted] at hids
    refine ⟨function, outs, folded, start, ids, groups, houts, hfolded, hstart, hchain, hgroups,
      ?_, hids⟩
    exact hemitted.symm

end Compile

/-- One statement is dropped. -/
theorem compile_unreached_patrol :
    ∃ result st, compile "main.bot" Robot.catalog noPictures {} patrol = .ok result ∧
      stagesOf "main.bot" Robot.catalog noPictures [] {} patrol = .ok st ∧
      result.warnings.length = 1 ∧
      ∀ body, (st.lowerContext Robot.catalog).EmitsBody st.parsed.program body →
        ∃ outs folded start ids groups, Stmt.PrunedAll outs folded ∧
          result.graph.IsChain start ids ∧
          Forall₂ ((st.lowerContext Robot.catalog).Becomes st.parsed.program.nextId)
            ((st.lowerContext Robot.catalog).reached body) groups ∧
          groups.flatten = (st.lowerContext Robot.catalog).emitted folded := by
  have hany : (compile "main.bot" Robot.catalog noPictures {} patrol).toOption.any
      (·.warnings.length == 1) = true := by decide +kernel
  obtain ⟨result, hres, hwarns⟩ := exists_of_toOption_any hany
  obtain ⟨st, hst, _, _, hbodies⟩ := compile_unreached hres rfl
  refine ⟨result, st, hres, hst, beq_iff_eq.mp hwarns, fun body hbody => ?_⟩
  obtain ⟨_, outs, folded, start, ids, groups, _, hfolded, _, hchain, hgroups, heq, _⟩ :=
    hbodies body hbody
  exact ⟨outs, folded, start, ids, groups, hfolded, hchain, hgroups, heq⟩

end BlockScript
