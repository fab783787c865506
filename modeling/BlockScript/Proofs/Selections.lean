import BlockScript.Proofs.Emitted
import BlockScript.Proofs.Faithful

/-!
# Selections

Some parameters of the catalog offer a few texts only. The block of a call shows the selected text
in a field of its own or in that of a menu. In the graph of a program that compiles, every text that
is shown there is one of those that are offered. A menu gives way to a reporter just where the value
of the argument is not known.
-/

namespace BlockScript

open List

variable {face : Face} {core : Block} {id : Nat} {node : Node} {c : LowerContext} {callee : String}
  {steps : List Step}

/-- Whether a signature has a parameter that offers a few texts only. -/
def Signature.isSelective (s : Signature) : Bool := s.params.any (·.options.isSome)

/-- Whether a slot shows a selection, in a field or in a menu. -/
def Slot.isSelection : Slot → Bool
  | .field _ | .menu .. => true
  | _ => false

/-- Whether a block shows a selection for an argument: one of the options in a field or in a menu,
as the value of the argument says, or a reporter in place of the menu if the value is not known. -/
def Graph.Selects (g : Graph) (node : Node) (spec : ParamSpec) (options : List String)
    (arg : Expr) : Prop :=
  match spec.slot with
  | .field name => ∃ text ∈ options, arg.value? = some (.string text) ∧
      node.face.fields.get? name = some { value := text }
  | .menu name opcode field => ∃ id child, node.inputs.get? name = some (.block id) ∧
      g.nodes[id]? = some child ∧
      ((∃ text ∈ options, arg.value? = some (.string text) ∧ child.face.opcode = opcode ∧
          child.face.shadow = true ∧ child.face.fields.get? field = some { value := text }) ∨
        (arg.value? = none ∧ child.face.shadow = false))
  | _ => False

namespace Graph

variable {scripts : List Block}

private theorem StandsAt.exists_child (hlink : ∀ b ∈ scripts, b.Linked) {b : Block} {name : String}
    (hstands : StandsAt (placedFrom 0 scripts) core id)
    (hnode : (ofScripts scripts).nodes[id]? = some node)
    (hfrom : assembleFrom face steps = (core, none)) (hlinks : (steps.filterMap Step.link?).Nodup)
    (hmem : .input name (.assembly ⟨some b, none⟩) ∈ steps) :
    ∃ child found, node.inputs.get? name = some (.block child) ∧
      (ofScripts scripts).nodes[child]? = some found ∧ found.face = b.face := by
  have hheld := held?_assembleFrom hfrom hlinks hmem (Link.takes_input name _)
  have hat := hstands.at_input hlink hnode name
  rw [hheld] at hat
  obtain ⟨q, hq, rfl, hinput⟩ := hat
  exact ⟨q.id, q.node, hinput, getElem?_ofScripts_iff.mpr ⟨q, hq, rfl, rfl⟩, rfl⟩

private theorem selects_of_mem (hlink : ∀ b ∈ scripts, b.Linked) {spec : ParamSpec} {arg : Expr}
    (hfrom : assembleFrom face steps = (core, none)) (hlinks : (steps.filterMap Step.link?).Nodup)
    (hfields : (fieldNames steps).Nodup) (hmem : c.place callee spec arg (c.lowerExpr arg) ∈ steps)
    (hsuits : c.Suits spec arg) (hselection : spec.slot.isSelection) {options : List String}
    (hoptions : spec.options = some options) (hstands : StandsAt (placedFrom 0 scripts) core id)
    (hnode : (ofScripts scripts).nodes[id]? = some node) :
    (ofScripts scripts).Selects node spec options arg := by
  have hfault := fault?_of_assembleFrom hfrom _ hmem
  unfold LowerContext.Suits at hsuits
  unfold LowerContext.place at hmem hfault
  unfold Selects
  cases hslot : spec.slot with
  | input name | list field =>
    rw [hslot] at hselection
    cases hselection
  | field name =>
    simp only [hslot] at hmem hfault hsuits ⊢
    cases hvalue : arg.value? with
    | none =>
      rw [hvalue] at hfault
      cases hfault
    | some value =>
      obtain ⟨text, rfl, hoffers⟩ := hsuits.1 value hvalue
      rw [hvalue] at hmem
      refine ⟨text, hoffers options hoptions, rfl, ?_⟩
      rw [hstands.face_eq hnode, face_of_assembleFrom hfrom]
      exact get?_foldl_onFace hfields hmem face
  | menu name opcode field =>
    simp only [hslot] at hmem hfault hsuits ⊢
    cases hvalue : arg.value? with
    | none =>
      rw [hvalue] at hmem hfault
      obtain ⟨b, hb, hshadow⟩ := hsuits.2 hvalue hfault
      rw [hb] at hmem
      obtain ⟨child, found, hinput, hchild, hface⟩ :=
        hstands.exists_child hlink hnode hfrom hlinks hmem
      exact ⟨child, found, hinput, hchild, .inr ⟨rfl, hface ▸ hshadow⟩⟩
    | some value =>
      obtain ⟨text, rfl, hoffers⟩ := hsuits.1 value hvalue
      rw [hvalue] at hmem
      obtain ⟨child, found, hinput, hchild, hface⟩ :=
        hstands.exists_child hlink hnode hfrom hlinks hmem
      refine ⟨child, found, hinput, hchild, .inl ⟨text, hoffers options hoptions, rfl, ?_⟩⟩
      rw [hface]
      exact ⟨rfl, rfl, (Table.get?_insert ..).trans (if_pos rfl)⟩

end Graph

namespace Robot

private theorem selections : ∀ s ∈ catalog.signatures, ∀ spec ∈ s.params, spec.options ≠ none →
    spec.slot.isSelection := by decide

private theorem selective_unique : ∀ s ∈ catalog.signatures.filter Signature.isSelective,
    ∀ s' ∈ catalog.signatures, s'.opcode = s.opcode → s' = s := by decide +kernel

private theorem accessors_not_selective :
    ∀ s ∈ catalog.accessors, s.isSelective = false := by decide

private theorem hats_single :
    ∀ event ∈ catalog.events.values, ∀ s ∈ event.signatures, s.params.length ≤ 1 := by
  decide

end Robot

private theorem plainOpcodes_subset : plainOpcodes ⊆ ownOpcodes := by decide

private theorem variableOpcodes_subset : variableOpcodes ⊆ ownOpcodes := by decide

private theorem argumentOpcodes_subset : argumentOpcodes ⊆ ownOpcodes := by decide

namespace LowerContext

variable {c : LowerContext} {calls : List (String × List Expr)} {offset : Nat} {opcode : String}
  {shadow : Bool} {steps : List Step}

private theorem EmitsAt.exists_call (hcat : c.catalog = Robot.catalog)
    (h : c.EmitsAt calls offset opcode shadow steps) {s : Signature}
    (hs : s ∈ Robot.catalog.signatures) (hselective : s.isSelective) (hcode : opcode = s.opcode) :
    ∃ callee args rest, Robot.catalog.HasSignature callee s ∧ (callee, args) ∈ calls ∧
      s.params.length = args.length ∧ c.SuitsAll s.params args ∧
      steps = s.fieldSteps ++ c.placeAll callee s.params args ++ rest ∧
      (rest = [] ∨ ∃ body, rest = [c.bodyStep body]) := by
  have hown : opcode ∉ ownOpcodes := hcode ▸ Robot.tellsApart.signatures s hs
  have heq {s' : Signature} (hs' : s' ∈ Robot.catalog.signatures) (h : s'.opcode = s.opcode) :
      s' = s :=
    Robot.selective_unique s (mem_filter.mpr ⟨hs, hselective⟩) s' hs' h
  have haccessor {s' : Signature} (hs' : s' ∈ c.catalog.accessors) (h : s'.opcode = s.opcode) :
      False := by
    rw [hcat] at hs'
    cases heq (Catalog.accessors_subset _ hs') h
    cases (Robot.accessors_not_selective s hs').symm.trans hselective
  cases h with
  | @hat name s' param body hs' hcall hlen hsuits =>
    rw [hcat] at hs'
    cases heq (Catalog.mem_signatures_of_hat? hs') hcode
    obtain ⟨event, hevent, hhead⟩ := Option.bind_eq_some_iff.mp hs'
    have hall : s.params.take 1 = s.params := take_of_length_le
      (Robot.hats_single event (Table.mem_values_of_get? hevent) s (mem_of_head? hhead))
    rw [hall] at hlen hsuits ⊢
    exact ⟨_, _, _, .inr (.inr ⟨name, rfl, hs'⟩), hcall, hlen, hsuits, rfl, .inr ⟨body, rfl⟩⟩
  | receiver he | definition hsteps | prototype hf hsteps => exact absurd (by decide) hown
  | inner h =>
    cases h with
    | @operation op type =>
      exact absurd (plainOpcodes_subset (op.layout_mem_plainOpcodes type)) hown
    | control hcontrol => exact absurd (plainOpcodes_subset (mem_append_left _ hcontrol)) hown
    | @param f p _ hf hp => exact absurd (argumentOpcodes_subset p.type.reporterOpcode_mem) hown
    | scalar hv hvar hsteps => exact absurd (variableOpcodes_subset hvar) hown
    | list hl | functionCall hf | eventMenu he => exact absurd (by decide) hown
    | accessor hs' => exact (haccessor hs' hcode).elim
    | setter hp => exact (haccessor (Catalog.mem_accessors_of_property hp mem_cons_self) hcode).elim
    | @builtin s' callee args hs' hcall =>
      rw [hcat] at hs'
      cases heq hs'.mem_signatures hcode
      obtain ⟨hcall, hlen, hsuits⟩ := hcall
      exact ⟨callee, args, [], hs', hcall, hlen, hsuits, (append_nil _).symm, .inl rfl⟩
    | @menu s' spec name _ field text hs' hspec hslot =>
      rw [hcat] at hs'
      refine absurd hcode.symm ((Robot.tellsApart.menus s' hs' spec hspec opcode ?_).2 s hs)
      rw [hslot]
      rfl

end LowerContext

private theorem Graph.selects_of_steps {scripts : List Block} (hread : c.Readable scripts)
    {s : Signature} (hs : s ∈ c.catalog.signatures) {args : List Expr} {rest : List Step}
    (hrest : rest = [] ∨ ∃ body, rest = [c.bodyStep body]) (hlen : s.params.length = args.length)
    (hsuits : c.SuitsAll s.params args)
    (hselection : ∀ spec ∈ s.params, spec.options ≠ none → spec.slot.isSelection)
    (hfrom : assembleFrom face (s.fieldSteps ++ c.placeAll callee s.params args ++ rest) =
    (core, none)) (hstands : StandsAt (placedFrom 0 scripts) core id)
    (hnode : (ofScripts scripts).nodes[id]? = some node) :
    List.Forall₂ (fun spec arg => ∀ options, spec.options = some options →
      (ofScripts scripts).Selects node spec options arg) s.params args := by
  have hsteps := LowerContext.signatureSteps_apart hread.apart hs callee (.refl s.params) args
  have hlinks :
      ((s.fieldSteps ++ c.placeAll callee s.params args ++ rest).filterMap Step.link?).Nodup := by
    rcases hrest with rfl | ⟨body, rfl⟩
    · rw [append_nil]
      exact hsteps.nodup
    · exact hsteps.nodup_bodyStep c body
  have hmore : (fieldNames (c.placeAll callee s.params args ++ rest)).Sublist s.slotFields := by
    have hnone : rest.filterMap Step.field? = [] := by
      rcases hrest with rfl | ⟨body, rfl⟩ <;> rfl
    rw [fieldNames, filterMap_append, hnone, append_nil]
    exact LowerContext.fieldNames_placeAll callee s.params args
  have hfields : (fieldNames (s.fieldSteps ++ c.placeAll callee s.params args ++ rest)).Nodup := by
    rw [append_assoc]
    exact s.nodup_fieldNames hmore (hread.legible.fields s hs)
  refine forall₂_iff_zip.mpr ⟨hlen, fun {spec arg} hzip options hoptions => ?_⟩
  have hplace : c.place callee spec arg (c.lowerExpr arg) ∈
      s.fieldSteps ++ c.placeAll callee s.params args ++ rest :=
    mem_append_left _ (mem_append_right _ (LowerContext.mem_placeAll hzip))
  exact selects_of_mem hread.linked hfrom hlinks hfields hplace (hsuits _ hzip)
    (hselection spec (of_mem_zip hzip).1 (by simp [hoptions])) hoptions hstands hnode

private theorem LowerContext.InputsApart.inside (h : c.InputsApart) (item : Stmt) :
    (c.inside item).InputsApart := by
  cases item <;> exact ⟨h.signatures, h.functions⟩

/-- Selections are valid in every program that is compiled for the robot. A block of a kind with
something to select is what a call in the folded program is lowered to, with all that it holds. For
each argument of which the parameter has options, it shows one of them, which is the value of the
argument: in a field of its own, or in that of a menu. A reporter that is no shadow stands in place
of a menu just where the argument has no value. -/
theorem compile_selects {path : String} {pictures : Pictures} {options : CompileOptions}
    {source : Source} {result : Compilation}
    (h : compile path Robot.catalog pictures options source = .ok result) :
    ∃ st, stagesOf path Robot.catalog pictures options.defines options.analysis source = .ok st ∧
      ∀ (id : Nat) (node : Node), result.graph.nodes[id]? = some node →
        ∀ s ∈ Robot.catalog.signatures, s.isSelective = true → node.face.opcode = s.opcode →
          ∃ callee args, Robot.catalog.HasSignature callee s ∧
            (callee, args) ∈ st.folding.program.calls ∧
            (∃ item ∈ st.folding.program.statements, ∃ shadow rest core,
              assembleFrom { opcode := s.opcode, shadow } (s.fieldSteps ++
                ((st.lowerContext Robot.catalog).inside item).placeAll callee s.params args ++
                rest) = (core, none) ∧ result.graph.Shows core id) ∧
            List.Forall₂ (fun spec arg => ∀ options, spec.options = some options →
              result.graph.Selects node spec options arg) s.params args := by
  obtain ⟨st, hst, hclean, hlow, hblocks⟩ := blocks_of_compile h
  refine ⟨st, hst, ?_⟩
  rw [hblocks]
  intro id node hnode s hs hselective hcode
  obtain ⟨item, top, hitem, _, _, shadow, steps, core, hemits, _, hfrom, hstands⟩ :=
    Graph.exists_emitsAt hlow hnode (hclean.suited hst)
  have hcat := LowerContext.catalog_inside (st.lowerContext Robot.catalog) item
  obtain ⟨callee, args, rest, hsig, hcall, hlen, hsuits, rfl, hrest⟩ :=
    hemits.exists_call hcat hs hselective hcode
  have hmem := mem_of_mem_filter (of_mem_zip hitem).1
  refine ⟨callee, args, hsig, hcall, ⟨item, hmem, shadow, rest, core, hcode ▸ hfrom, hstands.shows⟩,
    ?_⟩
  exact Graph.selects_of_steps ⟨hlow.linked, hcat ▸ Robot.legible, hlow.apart.inside item⟩
    (hcat ▸ hs) hrest hlen hsuits (Robot.selections s hs) hfrom hstands hnode

/-- A program that selects in a hat, in a menu by a constant, and in a field by a sum. A variable
takes the place of another menu. -/
def spareMotor : Source :=
  Source.ofText <|
    "const spare = \"B\"\nvar side = \"A\"\n@button \"a\":\n  motors.run(spare, 50)\n" ++
    "  motors.stop(side)\n  display.pixel(1, 2, \"re\" + \"d\")\n"

/-- The port and the color are shown. -/
theorem compile_selects_spareMotor : ∃ result st,
    compile "main.bot" Robot.catalog noPictures {} spareMotor = .ok result ∧
      stagesOf "main.bot" Robot.catalog noPictures [] {} spareMotor = .ok st ∧
      (result.graph.nodes.filterMap fun n => (n.face.fields.get? "PORT").map (·.value)) = ["B"] ∧
      (result.graph.nodes.filterMap fun n => (n.face.fields.get? "COLOR").map (·.value)) = ["red"] ∧
      ∀ (id : Nat) (node : Node), result.graph.nodes[id]? = some node →
        ∀ s ∈ Robot.catalog.signatures, s.isSelective = true → node.face.opcode = s.opcode →
          ∃ callee args, (callee, args) ∈ st.folding.program.calls ∧
            List.Forall₂ (fun spec arg => ∀ options, spec.options = some options →
              result.graph.Selects node spec options arg) s.params args := by
  have hany : (compile "main.bot" Robot.catalog noPictures {} spareMotor).toOption.any
      (fun result =>
      decide ((result.graph.nodes.filterMap fun n => (n.face.fields.get? "PORT").map (·.value)) =
        ["B"] ∧
        (result.graph.nodes.filterMap fun n => (n.face.fields.get? "COLOR").map (·.value)) =
        ["red"])) =
      true := by decide +kernel
  obtain ⟨result, hres, hshown⟩ := exists_of_toOption_any hany
  obtain ⟨hport, hcolor⟩ := of_decide_eq_true hshown
  obtain ⟨st, hst, hselects⟩ := compile_selects hres
  refine ⟨result, st, hres, hst, hport, hcolor, fun id node hnode s hs hselective hcode => ?_⟩
  obtain ⟨callee, args, _, hcall, _, hargs⟩ := hselects id node hnode s hs hselective hcode
  exact ⟨callee, args, hcall, hargs⟩

end BlockScript
