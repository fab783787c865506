import BlockScript.Catalog.Robot
import BlockScript.Lowering.Program
import BlockScript.Proofs.Forest
import Mathlib.Data.List.TakeWhile

/-!
# Lowering links blocks well

Where lowering has no fault, every block it makes is well linked: what a step attaches gets a link
of its own. Blocks of the catalog are well linked because the parameters of a signature have inputs
of their own, and calls of functions because the parameters of a function have identities of their
own.
-/

namespace BlockScript

open List Step

variable {steps : List Step} {b : Block} {opcode name : String} {shadow : Bool} {c : Catalog}
  {s : Signature} {face : Face} {rest : Chain}

/-- The link under which a step attaches something. -/
def Step.link? : Step → Option Link
  | .attach link _ => some link
  | _ => none

/-- Whether all that a step attaches is linked, and no shadow is put after a block. -/
def Step.Linked : Step → Prop
  | .attach link content =>
    link ≠ .loose ∧ ∀ b, content = .assembly ⟨some b, none⟩ →
      b.Linked ∧ (link = .next → b.face.shadow = false)
  | _ => True

/-- Whether the block of a content is linked, if it is complete. -/
def Content.Linked (content : Content) : Prop :=
  ∀ b, content = .assembly ⟨some b, none⟩ → b.Linked

/-- A linked content in an input. -/
theorem Content.Linked.input {content : Content} (h : content.Linked) (name : String) :
    (input name content).Linked :=
  ⟨nofun, fun b hb => ⟨h b hb, nofun⟩⟩

/-- Why a content is not complete. -/
def Content.fault? : Content → Option Diagnostic
  | .literal _ => none
  | .assembly a => a.fault

/-- Why a step fails. -/
def Step.fault? : Step → Option Diagnostic
  | .attach _ content => content.fault?
  | .fault d => some d
  | _ => none

/-- What a step says of the face of its block. -/
def Step.onFace (face : Face) : Step → Face
  | .field name value => { face with fields := face.fields.insert name value }
  | .mutation m => { face with mutation := some m }
  | _ => face

/-- A block has the fault of the first of its steps that fails. -/
theorem fault_assembleFrom (face : Face) (steps : List Step) :
    (assembleFrom face steps).2 = steps.findSome? fault? := by
  fun_induction assembleFrom face steps with
  | case1 | case4 | case8 | case9 => rfl
  | case2 face name field rest ih => exact ih
  | case3 face m rest ih => exact ih
  | case5 face link value rest b fault heq ih => exact (congrArg Prod.snd heq).symm.trans ih
  | case6 face link held rest b fault heq ih => exact (congrArg Prod.snd heq).symm.trans ih
  | case7 face link rest ih => exact ih

/-- The face of a block is what its steps up to the first fault say. -/
theorem face_assembleFrom (face : Face) (steps : List Step) :
    (assembleFrom face steps).1.face =
    (steps.takeWhile fun step => step.fault?.isNone).foldl onFace face := by
  fun_induction assembleFrom face steps with
  | case1 | case4 | case8 | case9 => rfl
  | case2 face name field rest ih => exact ih
  | case3 face m rest ih => exact ih
  | case5 face link value rest b fault heq ih | case6 face link held rest b fault heq ih =>
    exact (congrArg (·.1.face) heq).symm.trans ih
  | case7 face link rest ih => exact ih

/-- A block holds things under the links of its steps. What has a fault is held loosely. -/
theorem links_assembleFrom (face : Face) (steps : List Step) :
    (assembleFrom face steps).1.contents.links.Sublist
      (steps.filterMap link? ++ (assembleFrom face steps).2.toList.map fun _ => .loose) := by
  fun_induction assembleFrom face steps with
  | case1 | case4 | case9 => exact nil_sublist _
  | case2 face name field rest ih => exact ih
  | case3 face m rest ih => exact ih
  | case5 face link value rest b fault heq ih =>
    rw [heq] at ih
    cases link with
    | input name => exact ih.cons_cons _
    | next => exact ih.cons _
    | loose => exact ih.cons _
  | case6 face link held rest b fault heq ih =>
    rw [heq] at ih
    exact ih.cons_cons link
  | case7 face link rest ih => exact ih.cons link
  | case8 face link held d rest => exact sublist_append_right _ _

section

variable (hok : assembleFrom face steps = (b, none))

include hok

/-- A complete block has no faulty step. -/
theorem fault?_of_assembleFrom : ∀ step ∈ steps, step.fault? = none :=
  findSome?_eq_none_iff.mp ((fault_assembleFrom face steps).symm.trans (congrArg Prod.snd hok))

/-- Steps tell the face. -/
theorem face_of_assembleFrom : b.face = steps.foldl onFace face := by
  have hface := face_assembleFrom face steps
  rwa [hok, takeWhile_eq_self_iff.mpr
    fun step hstep => by rw [fault?_of_assembleFrom hok step hstep]; rfl] at hface

/-- Steps tell the links. -/
theorem links_of_assembleFrom : b.contents.links.Sublist (steps.filterMap link?) := by
  have hlinks := links_assembleFrom face steps
  rwa [hok, Option.toList_none, map_nil, append_nil] at hlinks

/-- What linked steps under different links make without a fault is linked. -/
theorem assembleFrom_linked (hsteps : ∀ step ∈ steps, step.Linked)
    (hlinks : (steps.filterMap link?).Nodup) : b.contents.Linked := by
  fun_induction assembleFrom face steps generalizing b with
  | case1 face =>
    cases hok
    trivial
  | case2 face name field rest ih | case3 face m rest ih =>
    exact ih hok (forall_mem_cons.mp hsteps).2 hlinks
  | case5 face link value rest b' fault heq ih =>
    cases hok
    obtain ⟨hfresh, hrest⟩ := nodup_cons.mp hlinks
    have hlinked := ih heq (forall_mem_cons.mp hsteps).2 hrest
    cases link with
    | input name => exact ⟨fun hmem => hfresh ((links_of_assembleFrom heq).subset hmem), hlinked⟩
    | next => exact hlinked
    | loose => exact hlinked
  | case6 face link held rest b' fault heq ih =>
    cases hok
    obtain ⟨hfresh, hrest⟩ := nodup_cons.mp hlinks
    obtain ⟨⟨hloose, hheld⟩, hsteps⟩ := forall_mem_cons.mp hsteps
    obtain ⟨⟨hheldLinked, hheldNext⟩, hnext⟩ := hheld held rfl
    refine ⟨hloose, fun hmem => hfresh ((links_of_assembleFrom heq).subset hmem), fun hshadow => ?_,
      hheldLinked, ih heq hsteps hrest⟩
    refine ⟨fun hlink => ?_, hheldNext hshadow⟩
    rw [hnext hlink] at hshadow
    cases hshadow
  | case7 face link rest ih => exact ih hok (forall_mem_cons.mp hsteps).2 (nodup_cons.mp hlinks).2
  | case4 | case8 | case9 => cases hok

end

/-- Steps keep the opcode. -/
theorem foldl_onFace (face : Face) (steps : List Step) :
    (steps.foldl onFace face).opcode = face.opcode ∧ (steps.foldl onFace face).shadow =
      face.shadow := by
  induction steps generalizing face with
  | nil => exact ⟨rfl, rfl⟩
  | cons step rest ih =>
    rw [foldl_cons, (ih _).1, (ih _).2]
    cases step <;> exact ⟨rfl, rfl⟩

/-- What is assembled is complete. -/
theorem assembleFrom_of_assemble (hok : assemble opcode steps shadow = ⟨some b, none⟩) :
    assembleFrom { opcode, shadow } steps = (b, none) := by
  simpa only [assemble, Assembly.mk.injEq, Option.some.injEq, Prod.ext_iff] using hok

/-- A complete block has the opcode and is a shadow as the assembly says. -/
theorem face_of_assemble (hok : assemble opcode steps shadow = ⟨some b, none⟩) :
    b.face.opcode = opcode ∧ b.face.shadow = shadow := by
  rw [face_of_assembleFrom (assembleFrom_of_assemble hok)]
  exact foldl_onFace _ _

/-- Whether steps put things into inputs of their own. -/
structure StepsApart (steps : List Step) : Prop where
  nodup : (steps.filterMap link?).Nodup
  inputs_only : ∀ link ∈ steps.filterMap link?, ∃ name, link = .input name

namespace StepsApart

/-- No step puts a block after it. -/
theorem next_not_mem (h : StepsApart steps) : .next ∉ steps.filterMap link? := by
  intro hmem
  obtain ⟨_, heq⟩ := h.inputs_only _ hmem
  cases heq

/-- Different inputs are apart. -/
theorem of_sublist {names : List String} (hnames : names.Nodup)
    (hsub : (steps.filterMap link?).Sublist (names.map .input)) : StepsApart steps := by
  refine ⟨(hnames.map fun _ _ h => Link.input.inj h).sublist hsub, fun link hlink => ?_⟩
  obtain ⟨name, _, rfl⟩ := mem_map.mp (hsub.subset hlink)
  exact ⟨name, rfl⟩

/-- No links are apart. -/
theorem of_no_links (hlinks : ∀ step ∈ steps, step.link? = none) : StepsApart steps :=
  of_sublist nodup_nil (filterMap_eq_nil_iff.mpr hlinks ▸ .slnil)

/-- One input is apart. -/
theorem input (name : String) (content : Content) : StepsApart [.input name content] :=
  of_sublist (nodup_singleton name) (.refl _)

/-- Two inputs are apart. -/
theorem inputs {left right : String} (hne : left ≠ right) (first second : Content) :
    StepsApart [.input left first, .input right second] :=
  @of_sublist _ [left, right] (by simpa using hne) (.refl _)

/-- Other steps do not matter. -/
theorem no_links_append {more : List Step} (hlinks : ∀ step ∈ steps, step.link? = none)
    (hmore : StepsApart more) : StepsApart (steps ++ more) := by
  have hnil : (steps ++ more).filterMap link? = more.filterMap link? := by
    rw [filterMap_append, filterMap_eq_nil_iff.mpr hlinks, nil_append]
  exact ⟨hnil ▸ hmore.nodup, hnil ▸ hmore.inputs_only⟩

end StepsApart

/-- Whether the block of an assembly is linked and may stand in a stack, if it is complete: it is no
shadow, and nothing follows it yet. -/
def Assembly.Stackable (a : Assembly) : Prop :=
  ∀ b, a = ⟨some b, none⟩ → b.Linked ∧ .next ∉ b.contents.links ∧ b.face.shadow = false

/-- Steps apart are linked. -/
theorem StepsApart.linked_steps (h : StepsApart steps)
    (hcont : ∀ link content, .attach link content ∈ steps → content.Linked) :
    ∀ step ∈ steps, step.Linked := by
  intro step hstep
  cases step with
  | attach link content =>
    obtain ⟨name, rfl⟩ := h.inputs_only link (mem_filterMap.mpr ⟨_, hstep, rfl⟩)
    exact (hcont _ _ hstep).input name
  | _ => trivial

/-- A block with linked things in inputs of their own is linked, and nothing follows it. -/
theorem StepsApart.assemble (h : StepsApart steps) (hlinked : ∀ step ∈ steps, step.Linked)
    (hok : assemble opcode steps shadow = ⟨some b, none⟩) :
    b.Linked ∧ .next ∉ b.contents.links ∧ b.face.shadow = shadow := by
  have hfrom := assembleFrom_of_assemble hok
  have hcont := assembleFrom_linked hfrom hlinked h.nodup
  have hnext : .next ∉ b.contents.links :=
    fun hmem => h.next_not_mem ((links_of_assembleFrom hfrom).subset hmem)
  exact ⟨⟨hcont, fun _ => hnext⟩, hnext, (face_of_assemble hok).2⟩

private theorem Contents.links_append (contents more : Contents) :
    (contents.append more).links = contents.links ++ more.links := by
  induction contents with
  | empty => rfl
  | literal input value rest ih => simp [append, links, ih]
  | block link face inner rest _ ih => simp [append, links, ih]

private theorem Contents.Linked.append {contents more : Contents} (h : contents.Linked)
    (hmore : more.Linked) (hapart : List.Disjoint contents.links more.links) :
    (contents.append more).Linked := by
  induction contents with
  | empty => exact hmore
  | literal input value rest ih =>
    obtain ⟨hfresh, hrest⟩ := h
    obtain ⟨hhead, htail⟩ := disjoint_cons_left.mp hapart
    refine ⟨?_, ih hrest htail⟩
    rw [links_append, mem_append, not_or]
    exact ⟨hfresh, hhead⟩
  | block link face inner rest _ ih =>
    obtain ⟨hloose, hfresh, hshadow, hinner, hrest⟩ := h
    obtain ⟨hhead, htail⟩ := disjoint_cons_left.mp hapart
    refine ⟨hloose, ?_, hshadow, hinner, ih hrest htail⟩
    rw [links_append, mem_append, not_or]
    exact ⟨hfresh, hhead⟩

namespace Chain

/-- Whether the first block of a chain is complete, linked and no shadow, if the chain has no
fault. -/
def Linked (chain : Chain) : Prop :=
  ∀ b, chain.first = some b → chain.fault = none →
    chain.complete = true ∧ b.Linked ∧ b.face.shadow = false

private theorem Linked.cons (h : rest.Linked) (hlinked : b.Linked)
    (hnext : .next ∉ b.contents.links) (hshadow : b.face.shadow = false) :
    (Chain.cons b rest).Linked := by
  intro first hfirst hfault
  unfold Chain.cons at hfirst hfault ⊢
  cases hrest : rest.first with
  | none =>
    simp only [hrest, Option.some.injEq] at hfirst ⊢
    subst hfirst
    exact ⟨trivial, hlinked, hshadow⟩
  | some next =>
    simp only [hrest, Option.some.injEq] at hfirst hfault ⊢
    obtain ⟨hcomp, hnextLinked, hnextShadow⟩ := h next hrest hfault
    rw [if_pos hcomp] at hfirst
    subst hfirst
    have hbelow : (next.under .next .empty).Linked := by
      refine ⟨nofun, not_mem_nil, fun hb => ?_, hnextLinked.1, trivial⟩
      rw [hnextShadow] at hb
      cases hb
    refine ⟨trivial, ⟨?_, fun hb => ?_⟩, hshadow⟩
    · exact hlinked.1.append hbelow (disjoint_singleton.mpr hnext)
    · exact absurd (hshadow.symm.trans hb) nofun

/-- A chain that begins with an assembly is linked if the assembly may stand in a stack. -/
theorem Linked.ofAssembly (h : rest.Linked) {a : Assembly} (ha : a.Stackable)
    (stops : Bool) : (Chain.ofAssembly a stops rest).Linked := by
  obtain ⟨block, fault⟩ := a
  cases fault with
  | some d =>
    intro b _ hfault
    cases block <;> cases hfault
  | none =>
    cases block with
    | none => exact h
    | some b =>
      obtain ⟨hlinked, hnext, hshadow⟩ := ha b rfl
      cases stops with
      | false => exact h.cons hlinked hnext hshadow
      | true =>
        intro first hfirst _
        cases hfirst
        exact ⟨rfl, hlinked, hshadow⟩

end Chain

/-- The input that a slot fills. -/
def Slot.input? : Slot → Option String
  | .input name | .menu name _ _ => some name
  | _ => none

/-- The inputs that the parameters of a signature fill. -/
def Signature.inputs (s : Signature) : List String := s.params.filterMap (·.slot.input?)

/-- All signatures of a catalog. -/
def Catalog.signatures (c : Catalog) : List Signature :=
  (c.events.values ++ c.reporters.values ++ c.statements.values ++ c.functions.values).flatMap
      (·.signatures) ++
    c.properties.values.flatMap fun p => p.set :: p.changes

namespace Catalog

/-- Functions have signatures. -/
theorem mem_signatures_of_functions {b : Builtin} (hget : c.functions.get? name = some b)
    (hs : s ∈ b.signatures) : s ∈ c.signatures :=
  mem_append_left _ (mem_flatMap.mpr ⟨b, by simp [Table.mem_values_of_get? hget], hs⟩)

/-- Statements have signatures. -/
theorem mem_signatures_of_statements {b : Builtin} (hget : c.statements.get? name = some b)
    (hs : s ∈ b.signatures) : s ∈ c.signatures :=
  mem_append_left _ (mem_flatMap.mpr ⟨b, by simp [Table.mem_values_of_get? hget], hs⟩)

/-- Hats are signatures. -/
theorem mem_signatures_of_hat? (hhat : c.hat? name = some s) : s ∈ c.signatures := by
  obtain ⟨b, hget, hhead⟩ := Option.bind_eq_some_iff.mp hhat
  exact mem_append_left _
    (mem_flatMap.mpr ⟨b, by simp [Table.mem_values_of_get? hget], mem_of_head? hhead⟩)

/-- Assignments have signatures. -/
theorem mem_signatures_of_set {p : Property} (hget : c.properties.get? name = some p) :
    p.set ∈ c.signatures :=
  mem_append_right _ (mem_flatMap.mpr ⟨p, Table.mem_values_of_get? hget, mem_cons_self⟩)

end Catalog

/-- In the robot's catalog the parameters of a signature have inputs of their own. -/
theorem Robot.nodup_inputs : ∀ s ∈ Robot.catalog.signatures, s.inputs.Nodup := by decide

namespace LowerContext

variable {c : LowerContext}

/-- Whether parameters have inputs of their own, in the catalog and in functions. -/
structure InputsApart (c : LowerContext) : Prop where
  signatures : ∀ s ∈ c.catalog.signatures, s.inputs.Nodup
  functions : ∀ name f, c.defs.functions.get? name = some f →
    (f.params.map fun param => param.id.text).Nodup

/-- An entry has its signatures. -/
theorem mem_of_signature_ok {b : Builtin} {args : List Expr} {span : Span}
    (h : c.signature b args span = .ok s) : s ∈ b.signatures := by
  unfold signature at h
  split at h
  · cases h
  · split at h
    · rename_i hresolve
      cases h
      exact mem_of_find?_eq_some hresolve
    · cases h

/-- Fixed fields have no links. -/
theorem fieldSteps_link? (s : Signature) : ∀ step ∈ s.fieldSteps, step.link? = none := by
  intro step hstep
  obtain ⟨_, _, rfl⟩ := mem_map.mp hstep
  rfl

private theorem place_link? (callee : String) (spec : ParamSpec) (arg : Expr) (content : Content) :
    (c.place callee spec arg content).link? = spec.slot.input?.map .input := by
  unfold place
  split
  · rename_i hslot
    rw [hslot]
    rfl
  · rename_i hslot
    rw [hslot]
    split <;> rfl
  · rename_i hslot
    rw [hslot]
    split <;> rfl
  · rename_i hslot
    rw [hslot]
    split <;> rfl

private theorem placeAll_links (callee : String) (specs : List ParamSpec) (args : List Expr) :
    ((c.placeAll callee specs args).filterMap link?).Sublist
    ((specs.filterMap (·.slot.input?)).map .input) := by
  induction specs generalizing args with
  | nil => simp [placeAll]
  | cons spec specs ih =>
    cases args with
    | nil => simp [placeAll]
    | cons arg args =>
      rw [placeAll, filterMap_cons, filterMap_cons, place_link?]
      cases spec.slot.input? with
      | none => exact ih args
      | some name => exact (ih args).cons_cons _

private theorem argument_links (params : List FunctionParam) (args : List Expr) :
    (((params.zip args).map fun (param, arg) =>
        input param.id.text (c.lowerExpr arg)).filterMap link?).Sublist
      ((params.map fun param => param.id.text).map .input) := by
  induction params generalizing args with
  | nil => simp
  | cons param params ih =>
    cases args with
    | nil => simp
    | cons arg args => exact (ih args).cons_cons _

/-- Arguments are apart. -/
theorem signatureSteps_apart (hapart : c.InputsApart) (hs : s ∈ c.catalog.signatures)
    (callee : String) {specs : List ParamSpec} (hspecs : specs.Sublist s.params)
    (args : List Expr) : StepsApart (s.fieldSteps ++ c.placeAll callee specs args) :=
  .no_links_append (fieldSteps_link? s) (.of_sublist (hapart.signatures s hs)
    ((placeAll_links callee specs args).trans ((hspecs.filterMap (·.slot.input?)).map Link.input)))

/-- Arguments of functions are apart. -/
theorem functionCallSteps_apart (hapart : c.InputsApart) {f : Function}
    (hf : c.defs.functions.get? name = some f) (args : List Expr) :
    StepsApart ((f.params.zip args).map (fun (param, arg) =>
        input param.id.text (c.lowerExpr arg)) ++
      [.mutation { procedure := f.procedure, argumentIds := f.params.map (·.id) }]) := by
  refine .of_sublist (hapart.functions name f hf) ?_
  rw [filterMap_append]
  exact (append_nil _).symm ▸ argument_links f.params args

/-- Branches are apart. -/
theorem branchSteps_apart (condition thenContent elseContent : Content) : StepsApart
    [.input "CONDITION" condition, .input "SUBSTACK" thenContent, .input "SUBSTACK2" elseContent] :=
  @StepsApart.of_sublist _ ["CONDITION", "SUBSTACK", "SUBSTACK2"] (by decide) (.refl _)

/-- Headers and bodies are apart. -/
theorem lowerLoop_apart (kind : LoopKind) (content : Content) :
    StepsApart ((c.lowerLoop kind).2 ++ [.input "SUBSTACK" content]) := by
  cases kind with
  | forever => exact .input _ _
  | times | «until» => exact .inputs (by decide) _ _

end LowerContext

end BlockScript
