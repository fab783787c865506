import BlockScript.Proofs.FoldTypes
import BlockScript.Proofs.ReadBack

/-!
# Arguments that suit their slots

Folding replaces a name by the value that its definitions have for it. In an accepted program this
value fits the type of what the name was resolved to, as long as no constant hides a readable
property whose type it does not fit.

Fields and menus show texts, and some slots name lists. In a catalog whose parameters have types to
match, the arguments of an accepted program suit their slots after folding: what has become of a
text is a text that is offered, a text that is not known is reported by a block, and what names a
list is neither a parameter nor a variable.
-/

namespace BlockScript

open List

section

variable {k : Constant}

/-- A name that is declared as a constant denotes it. -/
theorem Definitions.exists_constant {d : Definitions} (hdist : d.Distinct) {name : String}
    (h : d.lookup .constant name ≠ none) :
    ∃ k, d.lookup .constant name = some (.constant k) ∧ d.entity? name = some (.constant k) := by
  obtain ⟨decl, hdecl⟩ := Option.ne_none_iff_exists'.mp h
  obtain ⟨k, _, rfl⟩ := Option.map_eq_some_iff.mp hdecl
  exact ⟨_, hdecl, entity?_of_lookup hdist hdecl rfl⟩

namespace Finished

variable {w : Finished} {fits : Value → DataType → Prop} {function : Option String}
  {params passed : List String} {d : Definitions} {c : FoldContext} {name : String} {id : Nat}

/-- Whether constants that hide readable properties fit the types of these. -/
def HidesFittingly (w : Finished) (fits : Value → DataType → Prop) : Prop :=
  ∀ use, w.resolved use → ∀ signature type, use.entity = .reporter signature type →
    w.defs.lookup .constant use.name ≠ none → ∀ value, fits value type

/-- What makes values fit the types of the names that stand for them. -/
structure Consistent (w : Finished) (fits : Value → DataType → Prop) : Prop where
  fitting : Fitting fits
  numbers : w.catalog.ComputesNumbers
  supports : ∀ use, w.resolved use → w.Supports use
  distinct : w.defs.Distinct
  hides : w.HidesFittingly fits

private theorem lookup_constant_of_value? {value : Value} (h : d.value? name = some value) :
    d.lookup .constant name ≠ none := by
  obtain ⟨k, hk, _⟩ := Option.bind_eq_some_iff.mp h
  simp [Definitions.lookup, hk]

/-- A name that folding knows is declared as a constant. It was resolved to it, or else to a
readable property. -/
theorem denoted_of_known? (hw : w.Consistent fits) (haround : w.Around function params)
    (hlook : d.lookup = w.defs.lookup) {entity : Entity}
    (hden : w.resolved ⟨function, id, name, entity⟩) {value : Value}
    (hknown : (c.within d params).known? name = some value) :
    d.value? name = some value ∧ ∃ k, w.defs.lookup .constant name = some (.constant k) ∧
      w.defs.entity? name = some (.constant k) ∧
      (entity = .constant k ∨ ∃ signature type, entity = .reporter signature type) := by
  have hhas := (hw.supports _ hden).has
  unfold FoldContext.known? at hknown
  split at hknown
  · cases hknown
  rename_i hparams
  have hnot : name ∉ params := by simpa [FoldContext.within] using hparams
  have hvalue : d.value? name = some value := hknown
  have hconst := lookup_constant_of_value? hvalue
  rw [hlook] at hconst
  obtain ⟨k, hk, hdenotes⟩ := Definitions.exists_constant hw.distinct hconst
  refine ⟨hvalue, k, hk, hdenotes, ?_⟩
  cases entity with
  | param p => exact absurd ((haround.hidden name).mp (by simp [show _ = some p from hhas])) hnot
  | scalar v => cases hdenotes.symm.trans hhas.2
  | list l => cases hdenotes.symm.trans hhas.2
  | constant k' => exact .inl (Option.some.inj (hhas.2.symm.trans hdenotes))
  | reporter signature type => exact .inr ⟨signature, type, rfl⟩

/-- What folding knows of a name fits the type of what the name was resolved to. -/
theorem knownFit (hw : w.Consistent fits) (haround : w.Around function params)
    (hfit : w.Fit fits passed d) (names : List (Nat × String)) :
    Expr.KnownFit fits (w.typing function passed) (c.within d params) names := by
  rintro ⟨id, name⟩ _ entity ⟨hden, hpassed⟩ value hknown
  obtain ⟨hvalue, k, hk, _, rfl | ⟨signature, type, rfl⟩⟩ :=
    denoted_of_known? hw haround hfit.lookup hden hknown
  · obtain ⟨value', hvalue', hfits⟩ := hfit.values name (hpassed k rfl) k hk
    cases hvalue.symm.trans hvalue'
    exact hfits
  · exact hw.hides _ hden signature type rfl (by simp [hk]) value

/-- A name that was resolved to a constant is that of no parameter, and it is declared so. -/
theorem lookup_of_resolved (hw : w.Consistent fits)
    (hden : w.resolved ⟨function, id, name, .constant k⟩) :
    (w.context function).param? name = none ∧ w.defs.lookup .constant name =
    some (.constant k) := by
  obtain ⟨hparam, hent⟩ := (hw.supports _ hden).has
  obtain ⟨kind, decl, hlook, hof⟩ := Definitions.exists_lookup_of_entity? hent
  refine ⟨hparam, ?_⟩
  cases decl <;> cases hof
  cases kind with
  | constant => exact hlook
  | _ =>
    obtain ⟨_, _, heq⟩ := Option.map_eq_some_iff.mp hlook
    cases heq

/-- Folding knows what a constant stands for that has been passed. -/
theorem known?_ne_none (hw : w.Consistent fits) (haround : w.Around function params)
    (hfit : w.Fit fits passed d)
    (hdenotes : (w.typing function passed).denotes id name (.constant k)) :
    (c.within d params).known? name ≠ none := by
  obtain ⟨hden, hpassed⟩ := hdenotes
  obtain ⟨hparam, hlook⟩ := lookup_of_resolved hw hden
  obtain ⟨value, hvalue, _⟩ := hfit.values name (hpassed k rfl) k hlook
  have hnot : name ∉ params := fun hmem => (haround.hidden name).mpr hmem hparam
  unfold FoldContext.known?
  rw [if_neg (by simpa [FoldContext.within] using hnot)]
  intro hnone
  cases hvalue.symm.trans hnone

/-- In a consistent analysis, values that folding finds fit the types of their expressions. -/
theorem Consistent.findsFitting (hw : w.Consistent fits) (c : FoldContext) :
    w.FindsFitting fits c :=
  fun haround hfit htyped hv =>
    Expr.fits_of_fold hw.fitting hw.numbers htyped (knownFit hw haround hfit _) hv

end Finished

end

variable {e arg : Expr} {c : FoldContext} {callee name : String} {spec : ParamSpec}
  {args : List Expr} {kind : EventKind} {tag : Tag} {target : DataType} {types : List DataType}

/-- Whether a slot is for values of a type. -/
def Slot.isFor : Slot → DataType → Bool
  | .input _, _ => true
  | .field _, type | .menu .., type => type = .string
  | .list _, type => type.isList

/-- Whether the slots of all parameters are for values of their types. -/
def Catalog.SlotsTyped (catalog : Catalog) : Prop :=
  ∀ signature ∈ catalog.signatures, ∀ spec ∈ signature.params, spec.slot.isFor spec.type = true

private theorem Expr.Typed.exists_denoted {t : TypingContext} :
    ∀ {e : Expr} {type : DataType}, e.Typed t type → e.name? = some name → ∃ id entity,
      t.denotes id name entity ∧ entity.type = type
  | .ident tag _, _, .ident hname _, h => by
    cases h
    exact ⟨tag.id, _, hname, rfl⟩
  | .group _ _, _, .group hinner _, h => hinner.exists_denoted h
  | .literal .., _, _, h | .call .., _, _, h | .cast .., _, _, h | .list .., _, _, h
  | .not .., _, _, h
  | .binary .., _, _, h => by cases h

private theorem Content.isReporter_ofSteps (opcode : String) (steps : List Step) :
    (Content.ofSteps opcode steps).IsReporter := by
  intro hfault
  obtain ⟨b, hb⟩ := LowerContext.exists_of_assemble hfault
  exact ⟨b, congrArg Content.assembly hb, (face_of_assemble hb).2⟩

private theorem Content.isReporter_failed (fault : LoweringFault) (span : Span) :
    (Content.failed fault span).IsReporter := nofun

private theorem Expr.literalOr_of_value? {value : Option Value}
    (h : (literalOr tag value e).value? = none) : value = none ∧ literalOr tag value e = e := by
  cases value with
  | none => exact ⟨rfl, rfl⟩
  | some value => cases h

private theorem DataType.held_of_castLayout? {source : DataType} (hcast : source.castable target)
    (hheld : target.held = .string) (hlayout : castLayout? source target = none) :
    source.held = .string := by
  cases source with
  | string | image => rfl
  | boolean => cases hcast
  | number | numberList | stringList =>
    cases target with
    | string => cases hlayout
    | image => cases hcast
    | _ => cases hheld

private theorem FoldContext.value?_of_castFindings {operand : Expr} (hheld : target.held = .string)
    (hfinds : c.castFindings target operand = [])
    (hvalue : Expr.castValue? c.pictures target operand.value? = none)
    (htext : ∀ value, operand.value? = some value → ∃ text, value = .string text) :
    operand.value? = none := by
  by_contra hsome
  obtain ⟨value, hknown⟩ := Option.ne_none_iff_exists'.mp hsome
  obtain ⟨text, rfl⟩ := htext value hknown
  rw [hknown, Expr.castValue?, Option.bind_some] at hvalue
  unfold castFindings at hfinds
  rw [hknown] at hfinds
  dsimp only at hfinds
  split at hvalue
  · rename_i result hcast
    subst hvalue
    cases target with
    | string => cases hcast
    | image =>
      unfold Value.cast at hcast
      dsimp only at hcast
      split at hcast
      · cases hcast
      split at hcast
      · cases hcast
      split at hcast <;> cases hcast
    | _ => cases hheld
  · rename_i fault hcast
    rw [hcast] at hfinds
    cases hfinds

private theorem FoldContext.mem_of_optionFindings (hfinds : c.optionFindings callee spec arg = [])
    {text : String} (hvalue : arg.value? = some (.string text)) :
    ∀ options ∈ spec.options, text ∈ options := by
  intro options hoptions
  have hstatic : c.defs.staticValue? arg = some (.string text) := by
    unfold Expr.value? at hvalue
    unfold Definitions.staticValue?
    split at hvalue
    · rename_i heq
      rw [heq]
      exact hvalue
    · cases hvalue
  by_contra hmem
  unfold optionFindings optionFault? at hfinds
  rw [Option.mem_def.mp hoptions, hstatic] at hfinds
  simp [hmem] at hfinds

private theorem FoldContext.optionFindings_of_argumentFindings
    (hfinds : c.argumentFindings callee spec arg = []) : c.optionFindings callee spec arg = [] := by
  unfold argumentFindings at hfinds
  split at hfinds
  · cases hfinds
  · exact hfinds

private theorem Folder.optionFindings_of_eventFindings {param : Expr} {hat : Signature}
    (hkind : kind ≠ .custom) (hhat : c.catalog.hat? name = some hat)
    (hhead : hat.params.head? = some spec) (hfinds : eventFindings c kind name param = []) :
    c.optionFindings ("@" ++ name) spec param = [] := by
  unfold eventFindings at hfinds
  split at hfinds
  · cases hfinds
  rwa [hhat, Option.bind_some, hhead] at hfinds

namespace LowerContext

variable {lc : LowerContext}

private theorem normal?_of_name? :
    ∀ {e : Expr}, e.name? = some name → lc.normal? e = lc.nameTerm? name
  | .ident _ _, h => by
    cases h
    rw [normal?]
  | .group _ inner, h => by
    rw [normal?]
    exact normal?_of_name? (e := inner) h
  | .literal .., h | .call .., h | .cast .., h | .list .., h | .not .., h
  | .binary .., h => by cases h

private theorem suited_literalOr {value : Option Value} (h : lc.Suited e) :
    lc.Suited (Expr.literalOr tag value e) := by
  cases value with
  | none => exact h
  | some value =>
    rw [Expr.literalOr, Suited]
    trivial

end LowerContext

namespace Finished

variable {w : Finished} {d : Definitions} {function : Option String} {params passed : List String}
  {c : FoldContext}

/-- What makes arguments suit their slots. -/
structure Suiting (w : Finished) (d : Definitions) : Prop where
  ready : w.Ready d
  slots : w.catalog.SlotsTyped
  consistent : w.Consistent Value.TextIfSo

/-- Whether folding reads what a finished analysis says, in a function or outside of all functions,
at a point where some constants are known. -/
structure Reached (w : Finished) (function : Option String) (passed : List String)
    (c : FoldContext) : Prop where
  reads : c.Reads w
  around : ∃ params, w.Around function params
  known : ∀ names, Expr.KnownFit Value.TextIfSo (w.typing function passed) c names
  constants : ∀ id name k, (w.typing function passed).denotes id name (.constant k) →
    c.known? name ≠ none

private theorem Reached.textIfSo (h : w.Suiting d) (hc : w.Reached function passed c)
    {type : DataType} (htyped : e.Typed (w.typing function passed) type) {value : Value}
    (hvalue : (e.fold c).value? = some value) : value.TextIfSo type :=
  Expr.fits_of_fold h.consistent.fitting h.consistent.numbers htyped (hc.known _) hvalue

private theorem Suiting.isReporter_lowerName (h : w.Suiting d) (hc : w.Reached function passed c)
    {id : Nat} {entity : Entity} (hdenotes : (w.typing function passed).denotes id name entity)
    (hheld : entity.type.held = .string) (hunknown : c.known? name = none) (span : Span) :
    ((w.lowering d function).lowerName name span).IsReporter := by
  have hhas := (h.ready.supports _ hdenotes.1).has
  unfold LowerContext.lowerName
  split
  · exact Content.isReporter_ofSteps _ _
  rename_i hparam
  split
  · exact Content.isReporter_ofSteps _ _
  rename_i hscalar
  split
  · exact Content.isReporter_ofSteps _ _
  rename_i hlist
  split
  · rename_i value hvalue
    have hconst := lookup_constant_of_value? (d := d) hvalue
    rw [h.ready.valued.lookup] at hconst
    obtain ⟨k, _, hent⟩ := Definitions.exists_constant h.ready.distinct hconst
    cases entity with
    | param p =>
      have hp : (w.context function).param? name = some p := hhas
      rw [← h.ready.valued.param?_eq] at hp
      exact (hparam p hp).elim
    | scalar v => cases hent.symm.trans hhas.2
    | list l => cases hent.symm.trans hhas.2
    | constant k => exact absurd hunknown (hc.constants _ _ _ hdenotes)
    | reporter signature type =>
      -- A constant hides no property that is held as a text.
      obtain ⟨text, htext⟩ :=
        h.consistent.hides _ hdenotes.1 signature type rfl hconst (.boolean true) hheld
      cases htext
  split
  · exact Content.isReporter_ofSteps _ _
  · exact Content.isReporter_failed _ _

private theorem Suiting.isReporter_fold (h : w.Suiting d) (hc : w.Reached function passed c) :
    ∀ {e : Expr} {type : DataType}, e.Typed (w.typing function passed) type → type.held = .string →
      e.findings c = [] → (e.fold c).value? = none →
      ((w.lowering d function).lowerExpr (e.fold c)).IsReporter
  | .literal tag value, _, _, _, _, hnone => by
    rw [Expr.fold] at hnone
    cases hnone
  | .ident tag name, _, .ident hname _, hheld, _, hnone => by
    rw [Expr.fold] at hnone ⊢
    obtain ⟨hunknown, heq⟩ := Expr.literalOr_of_value? hnone
    rw [heq, LowerContext.lowerExpr]
    exact h.isReporter_lowerName hc hname hheld hunknown tag.span
  | .call tag callee args, _, _, _, _, hnone => by
    rw [Expr.fold] at hnone ⊢
    rw [(Expr.literalOr_of_value? hnone).2, LowerContext.lowerExpr]
    split
    · exact Content.isReporter_failed _ _
    · split
      · rintro ⟨⟩
      · exact Content.isReporter_ofSteps _ _
  | .cast tag target operand, _, .cast hoperand hcast _, hheld, hfinds, hnone => by
    obtain ⟨hinner, hfinds⟩ := append_eq_nil_iff.mp hfinds
    rw [Expr.fold] at hnone ⊢
    obtain ⟨hvalue, heq⟩ := Expr.literalOr_of_value? hnone
    rw [heq, LowerContext.lowerExpr]
    split
    · exact Content.isReporter_failed _ _
    rename_i source hsrc
    split
    · rename_i hlayout
      have hid : (operand.fold c).id = operand.id := congrArg Tag.id (Expr.tag_fold c operand)
      rw [hid] at hsrc
      cases hoperand.recorded.symm.trans hsrc
      have hsrc := DataType.held_of_castLayout? hcast hheld hlayout
      refine h.isReporter_fold hc hoperand hsrc hinner ?_
      exact FoldContext.value?_of_castFindings hheld hfinds hvalue fun _ hknown =>
        hc.textIfSo h hoperand hknown hsrc
    · exact Content.isReporter_ofSteps _ _
  | .not tag operand, _, .not _ _, hheld, _, _ => by cases hheld
  | .binary tag op left right, _, _, _, _, hnone => by
    rw [Expr.fold] at hnone ⊢
    rw [(Expr.literalOr_of_value? hnone).2, LowerContext.lowerExpr]
    split
    · exact Content.isReporter_failed _ _
    · exact Content.isReporter_ofSteps _ _
  | .group tag inner, _, .group hinner _, hheld, hfinds, hnone => by
    rw [Expr.fold] at hnone ⊢
    obtain ⟨hvalue, heq⟩ := Expr.literalOr_of_value? hnone
    rw [heq, LowerContext.lowerExpr]
    exact h.isReporter_fold hc hinner hheld hfinds hvalue
termination_by structural e => e

private theorem Suiting.nameTerm?_list (h : w.Suiting d) {l : ListVariable}
    (hparam : (w.context function).param? name = none) (hlist : d.lists.get? name = some l) :
    (w.lowering d function).nameTerm? name = some (.list l.name l.id) := by
  have hlook : w.defs.lookup .list name ≠ none := by
    rw [← h.ready.valued.lookup]
    simp [Definitions.lookup, hlist]
  obtain ⟨decl, hdecl⟩ := Option.ne_none_iff_exists'.mp hlook
  have hvar :=
    Definitions.lookup_eq_none_of_distinct h.ready.distinct hdecl .variable (by rintro ⟨⟩)
  rw [← h.ready.valued.lookup] at hvar
  have hscalar : d.scalars.get? name = none := Option.map_eq_none_iff.mp hvar
  rw [← h.ready.valued.param?_eq] at hparam
  simp only [LowerContext.nameTerm?, hparam, lowering_defs, hscalar, hlist]

private theorem Suiting.suits_fold (h : w.Suiting d) (hc : w.Reached function passed c)
    (hslot : spec.slot.isFor spec.type)
    (harg : arg.Typed (w.typing function passed) spec.type) (hfinds : arg.findings c = [])
    (hoptions : c.optionFindings callee spec (arg.fold c) = [])
    (hlist : ∀ field, spec.slot = .list field →
      ∃ name, arg.name? = some name ∧ w.defs.lookup .list name ≠ none) :
    (w.lowering d function).Suits spec (arg.fold c) := by
  have hshown (htype : spec.type = .string) :
        (∀ value, (arg.fold c).value? = some value → spec.Offers value) ∧
        ((arg.fold c).value? = none →
        ((w.lowering d function).lowerExpr (arg.fold c)).IsReporter) := by
    have hheld : spec.type.held = .string := by rw [htype, DataType.held]; rintro ⟨⟩
    refine ⟨fun value hvalue => ?_, h.isReporter_fold hc harg hheld hfinds⟩
    obtain ⟨text, rfl⟩ := hc.textIfSo h harg hvalue hheld
    exact ⟨text, rfl, FoldContext.mem_of_optionFindings hoptions hvalue⟩
  unfold LowerContext.Suits
  split
  · trivial
  · rename_i heq
    rw [heq] at hslot
    exact hshown (of_decide_eq_true hslot)
  · rename_i heq
    rw [heq] at hslot
    exact hshown (of_decide_eq_true hslot)
  · rename_i field heq
    rw [heq] at hslot
    obtain ⟨name, hname, hdeclared⟩ := hlist field heq
    have hfolded := Expr.name?_fold (hc.reads.known?_eq_none h.ready.distinct hdeclared) hname
    intro l hl
    rw [LowerContext.list?, hfolded, Option.bind_some] at hl
    rw [LowerContext.normal?_of_name? hfolded]
    refine h.nameTerm?_list ?_ hl
    obtain ⟨params, haround⟩ := hc.around
    obtain ⟨id, entity, ⟨hden, _⟩, htype⟩ := harg.exists_denoted hname
    have hhas := (h.ready.supports _ hden).has
    cases entity with
    | param p =>
      have hscalar : spec.type.isList = false := htype ▸ haround.scalar name p hhas
      exact absurd hslot (Bool.eq_false_iff.mp hscalar)
    | scalar v => exact hhas.1
    | list l => exact hhas.1
    | constant k => exact hhas.1
    | reporter signature type => exact hhas.1

private theorem Suiting.suitsAll_fold (h : w.Suiting d) (hc : w.Reached function passed c)
    {specs : List ParamSpec} (hslots : ∀ spec ∈ specs, spec.slot.isFor spec.type)
    (hargs : Expr.TypedAll (w.typing function passed) args (specs.map (·.type)))
    (hfinds : Expr.findingsAll c args = [])
    (hoptions : ∀ p ∈ specs.zip (Expr.foldAll c args), c.optionFindings callee p.1 p.2 = [])
    (hlists : (w.typing function passed).NamesLists specs args) :
    (w.lowering d function).SuitsAll specs (Expr.foldAll c args) := by
  induction specs generalizing args with
  | nil => simp [LowerContext.SuitsAll]
  | cons spec specs ih =>
    cases hargs with
    | @cons arg args _ _ harg hargs =>
      rw [forall_mem_cons] at hslots
      obtain ⟨hfinding, hfinds⟩ := append_eq_nil_iff.mp hfinds
      rw [Expr.foldAll, zip_cons_cons, forall_mem_cons] at hoptions
      unfold TypingContext.NamesLists at hlists
      rw [zip_cons_cons, forall_mem_cons] at hlists
      intro p hp
      rw [Expr.foldAll, zip_cons_cons] at hp
      rcases mem_cons.mp hp with rfl | hp
      · exact h.suits_fold hc hslots.1 harg hfinding hoptions.1 hlists.1
      · exact ih hslots.2 hargs hfinds hoptions.2 hlists.2 p hp

private theorem Suiting.suitsAll_call (h : w.Suiting d) (hc : w.Reached function passed c)
    {table : Table String Builtin} {b : Builtin} {signature : Signature}
    (hsig : signature ∈ w.catalog.signatures)
    (hargs : Expr.TypedAll (w.typing function passed) args types)
    (hcallee : table.get? callee = some b) (hresolve : b.resolve types = some signature)
    (hlists : (w.typing function passed).NamesLists signature.params args)
    (hfinds : Expr.findingsAll c args = [])
    (hcall : c.callFindings table callee (Expr.foldAll c args) = []) {span : Span} {s : Signature}
    (hs : (w.lowering d function).signature b (Expr.foldAll c args) span = .ok s) :
    (w.lowering d function).SuitsAll s.params (Expr.foldAll c args) := by
  obtain ⟨types', htypes', hresolve', _⟩ := LowerContext.exists_types_of_signature_ok hs
  rw [Expr.mapM_recorded_foldAll] at htypes'
  cases hargs.recorded.symm.trans htypes'
  cases hresolve.symm.trans hresolve'
  have hfound : c.signature? table callee (Expr.foldAll c args) = some signature := by
    unfold FoldContext.signature? FoldContext.typesOf?
    rw [hcallee, Option.bind_some, hc.reads.types, Expr.mapM_recorded_foldAll,
      show args.mapM (fun e => w.types.get? e.id) = _ from hargs.recorded, Option.bind_some,
      hresolve]
  unfold FoldContext.callFindings at hcall
  rw [hfound] at hcall
  rw [← Builtin.types_of_resolve hresolve] at hargs
  exact h.suitsAll_fold hc (h.slots signature hsig) hargs hfinds (fun p hp =>
    FoldContext.optionFindings_of_argumentFindings (flatMap_eq_nil_iff.mp hcall p hp)) hlists

mutual

/-- The arguments in a typed expression suit their slots after folding. -/
theorem Suiting.suited_fold (h : w.Suiting d) (hc : w.Reached function passed c) :
    ∀ {e : Expr} {type : DataType}, e.Typed (w.typing function passed) type → e.findings c = [] →
      (w.lowering d function).Suited (e.fold c)
  | .literal .., _, _, _ => by
    rw [Expr.fold, LowerContext.Suited]
    trivial
  | .ident .., _, _, _ => by
    rw [Expr.fold]
    refine LowerContext.suited_literalOr ?_
    rw [LowerContext.Suited]
    trivial
  | .call tag callee args, _, .call hargs hcallee hresolve hlists _ _, hfinds => by
    obtain ⟨hinner, hcall⟩ := append_eq_nil_iff.mp hfinds
    rw [Expr.fold]
    refine LowerContext.suited_literalOr ?_
    rw [LowerContext.Suited]
    refine ⟨h.suited_foldAll hc hargs hinner, fun b s hb hs => ?_⟩
    cases hcallee.symm.trans hb
    rw [hc.reads.catalog] at hcall
    exact h.suitsAll_call hc
      (Catalog.mem_signatures_of_functions hb (mem_of_find?_eq_some hresolve))
      hargs hcallee hresolve (hlists trivial) hinner hcall hs
  | .cast _ _ operand, _, .cast hoperand _ _, hfinds => by
    rw [Expr.fold]
    refine LowerContext.suited_literalOr ?_
    rw [LowerContext.Suited]
    exact h.suited_fold hc hoperand (append_eq_nil_iff.mp hfinds).1
  | .not _ operand, _, .not hoperand _, hfinds | .group _ inner, _, .group hoperand _, hfinds => by
    rw [Expr.fold]
    refine LowerContext.suited_literalOr ?_
    rw [LowerContext.Suited]
    exact h.suited_fold hc hoperand hfinds
  | .binary _ _ left right, _, .binary hleft hright _ _, hfinds => by
    obtain ⟨hfinds, _⟩ := append_eq_nil_iff.mp hfinds
    obtain ⟨hleft', hright'⟩ := append_eq_nil_iff.mp hfinds
    rw [Expr.fold]
    refine LowerContext.suited_literalOr ?_
    rw [LowerContext.Suited]
    exact ⟨h.suited_fold hc hleft hleft', h.suited_fold hc hright hright'⟩

private theorem Suiting.suited_foldAll (h : w.Suiting d) (hc : w.Reached function passed c) :
    ∀ {es : List Expr} {types : List DataType}, Expr.TypedAll (w.typing function passed) es types →
      Expr.findingsAll c es = [] → (w.lowering d function).SuitedAll (Expr.foldAll c es)
  | [], _, _, _ => by
    rw [Expr.foldAll, LowerContext.SuitedAll]
    trivial
  | _ :: _, _, .cons hfirst hrest, hfinds => by
    obtain ⟨hfirst', hrest'⟩ := append_eq_nil_iff.mp hfinds
    rw [Expr.foldAll, LowerContext.SuitedAll]
    exact ⟨h.suited_fold hc hfirst hfirst', h.suited_foldAll hc hrest hrest'⟩

end

private theorem Suiting.suited_call (h : w.Suiting d) (hc : w.Reached function passed c)
    (hargs : Expr.TypedAll (w.typing function passed) args types)
    (hcan : (w.typing function passed).CanCall w.defs name args types)
    (hfinds : Expr.findingsAll c args = [])
    (hcall : Folder.statementFindings c name (Expr.foldAll c args) = []) (span : Span) :
    (w.lowering d function).SuitedStmt (.call name (Expr.foldAll c args) span) := by
  rw [LowerContext.SuitedStmt]
  refine ⟨h.suited_foldAll hc hargs hfinds, fun hfun hevent b s hb hs => ?_⟩
  have hnoFunction : w.defs.lookup .function name = none := by
    rw [← h.ready.valued.lookup]
    exact Option.map_eq_none_iff.mpr hfun
  have hnoEvent : w.defs.lookup .event name = none := by
    rw [← h.ready.valued.lookup]
    exact Option.map_eq_none_iff.mpr hevent
  rcases hcan with ⟨f, hf, _⟩ | hdeclared | ⟨b', signature, hb', hresolve, hlists⟩
  · cases hnoFunction.symm.trans hf
  · exact absurd hnoEvent hdeclared
  · cases hb'.symm.trans hb
    exact h.suitsAll_call hc
      (Catalog.mem_signatures_of_statements hb (mem_of_find?_eq_some hresolve))
      hargs hb' hresolve hlists hfinds (hc.reads.callFindings_eq_nil hnoFunction hnoEvent hcall) hs

private theorem lowering_function {f : Function} (hf : d.functions.get? name = some f) :
    w.lowering d (some name) = { w.lowering d function with function := some f } := by
  unfold lowering context
  rw [Option.bind_some, hf]

section Statements

variable (h : w.Suiting d) (hcat : c.catalog = w.catalog) (htypes : c.types = w.types)

include h hcat htypes

private theorem Suiting.reached (haround : w.Around function params) {d' : Definitions}
    (hfit : w.Fit Value.TextIfSo passed d') : w.Reached function passed (c.within d' params) :=
  ⟨⟨hcat, htypes, hfit.lookup⟩, ⟨params, haround⟩, knownFit h.consistent haround hfit,
    fun _ _ _ hdenotes => known?_ne_none h.consistent haround hfit hdenotes⟩

private theorem Suiting.suited_of_foldsTo (haround : w.Around function params) {out : Expr}
    {type : DataType} (htyped : e.Typed (w.typing function passed) type)
    (hfolds : e.FoldsTo c (w.Fit Value.TextIfSo) params passed out) :
    (w.lowering d function).Suited out := by
  obtain ⟨d', hfit, rfl, hfinds⟩ := hfolds
  exact h.suited_fold (h.reached hcat htypes haround hfit) htyped hfinds

variable (hcomp : w.catalog.Complete)

include hcomp

private theorem Suiting.suited_event (haround : w.Around function params)
    {param out : Option Expr} (hcan : (w.typing function passed).CanHandle w.defs kind name param)
    (hfolds : Option.Rel (Expr.HandlesTo c (w.Fit Value.TextIfSo) params passed kind name)
    param out) :
    (∀ e ∈ out, (w.lowering d function).Suited e) ∧
    (kind ≠ .custom → ∀ s, w.catalog.hat? name = some s →
      (s.params.take 1).length = out.toList.length ∧
        (w.lowering d function).SuitsAll (s.params.take 1) out.toList) := by
  unfold TypingContext.CanHandle at hcan
  cases hfolds with
  | none =>
    refine ⟨nofun, fun hkind s hs => ?_⟩
    rw [if_neg hkind] at hcan
    obtain ⟨hat, hhat, hrel⟩ := hcan
    cases hhat.symm.trans hs
    generalize hhead : s.params.head? = first at hrel
    cases hrel
    rw [head?_eq_none_iff.mp hhead]
    exact ⟨rfl, nofun⟩
  | @some arg out hrel =>
  obtain ⟨d', hfit, rfl, hfinds, hevent⟩ := hrel
  have hreached := h.reached hcat htypes haround hfit
  split at hcan
  · cases hcan.2
  rename_i hkind
  obtain ⟨hat, spec, hhat, hhead, harg⟩ := hcan.exists_typed
  refine ⟨fun e he => ?_, fun _ s hs => ?_⟩
  · cases he
    exact h.suited_fold hreached harg hfinds
  cases hhat.symm.trans hs
  have hspec := mem_of_head? hhead
  have hlist := hcomp.isList_of_hat? hhat spec hspec
  rw [take_one, hhead]
  refine ⟨rfl, fun p hp => ?_⟩
  rw [mem_singleton.mp hp]
  have hoptions :=
    Folder.optionFindings_of_eventFindings (c := c.within d' params) hkind (hcat ▸ hhat)
      hhead hevent
  refine h.suits_fold hreached (h.slots hat ?_ spec hspec) harg hfinds hoptions
    fun field hslot => ?_
  · exact Catalog.mem_signatures_of_hat? hhat
  · rw [hslot] at hlist
    cases hlist

set_option linter.unusedSectionVars false in
mutual

private theorem Suiting.suitedStmt :
    ∀ {stmt out : Stmt} {function : Option String} {params passed : List String},
      w.Around function params → stmt.Accepted w function passed → stmt.FoldsTo c
      (w.Fit Value.TextIfSo) params passed out → (w.lowering d function).SuitedStmt out
  | .varDecl .., _, _, _, _, _, _, ⟨_, rfl, _⟩ | .constDecl .., _, _, _, _, _, _, ⟨_, rfl, _⟩ => by
    rw [LowerContext.SuitedStmt]
    trivial
  | .funcDecl .., _, _, _, _, _, ⟨_, hannounced, hbody⟩, ⟨_, rfl, hfolds⟩ => by
    rw [LowerContext.SuitedStmt]
    intro f hf
    rw [lowering_defs] at hf
    have hsuit := suitedBody (around_function hannounced) hbody hfolds
    rwa [lowering_function hf] at hsuit
  | .event .., _, _, _, _, haround, ⟨hcan, hbody⟩, ⟨_, _, rfl, hparam, hfolds⟩ => by
    rw [LowerContext.SuitedStmt]
    obtain ⟨hsuit, hsuits⟩ := h.suited_event hcat htypes hcomp haround hcan hparam
    exact ⟨hsuit, hsuits, suitedBody haround hbody hfolds⟩
  | .call name args span, _, _, _, _, haround, ⟨_, hargs, hcan⟩, ⟨_, hfit, rfl, hfinds, hcall⟩ =>
    h.suited_call (h.reached hcat htypes haround hfit) hargs hcan hfinds hcall span
  | .assign .., _, _, _, _, haround, ⟨⟨_, hvalue⟩, _⟩, ⟨_, rfl, hfolds⟩ => by
    rw [LowerContext.SuitedStmt]
    exact h.suited_of_foldsTo hcat htypes haround hvalue hfolds
  | .branch .., _, _, _, _, haround, ⟨hcond, hthen, helse⟩, ⟨_, _, _, rfl, hfolds, hthen',
      helse'⟩ => by
    rw [LowerContext.SuitedStmt]
    exact ⟨h.suited_of_foldsTo hcat htypes haround hcond hfolds, suitedBody haround hthen hthen',
      suitedBody haround helse helse'⟩
  | .loop .forever _ _, _, _, _, _, haround, ⟨_, hbody⟩, ⟨_, _, rfl, rfl, hfolds⟩ => by
    rw [LowerContext.SuitedStmt]
    exact suitedBody haround hbody hfolds
  | .loop (.times _) _ _, _, _, _, _, haround, ⟨hcount, hbody⟩, ⟨_, _, rfl, ⟨_, rfl, hfolds⟩,
    hfolds'⟩
  | .loop (.until _) _ _, _, _, _, _, haround, ⟨hcount, hbody⟩, ⟨_, _, rfl, ⟨_, rfl, hfolds⟩,
      hfolds'⟩ => by
    rw [LowerContext.SuitedStmt]
    exact ⟨h.suited_of_foldsTo hcat htypes haround hcount hfolds, suitedBody haround hbody hfolds'⟩

private theorem Suiting.suitedBody :
    ∀ {stmts out : List Stmt} {function : Option String} {params passed : List String},
      w.Around function params → Stmt.AcceptedAll w function passed stmts → Stmt.FoldsAll c
      (w.Fit Value.TextIfSo) params passed stmts out → (w.lowering d function).SuitedBody out
  | [], _, _, _, _, _, _, rfl => by
    rw [LowerContext.SuitedBody]
    trivial
  | _ :: _, _, _, _, _, haround, ⟨hfirst, hrest⟩, ⟨_, _, rfl, hfolds, hfolds'⟩ => by
    rw [LowerContext.SuitedBody]
    exact ⟨suitedStmt haround hfirst hfolds, suitedBody haround hrest hfolds'⟩

end

end Statements

/-- The arguments in an accepted program suit their slots after folding. -/
theorem Accepts.suited_fold {program : Program} (h : w.Accepts program.statements)
    (hslots : w.catalog.SlotsTyped) (hcomp : w.catalog.Complete)
    (hcons : w.Consistent Value.TextIfSo) {pictures : Pictures}
    (hclean : (program.fold w.catalog w.types pictures w.defs).errors = []) :
    ∀ item ∈ (program.fold w.catalog w.types pictures w.defs).program.statements,
      (w.lowering (program.fold w.catalog w.types pictures w.defs).defs none).SuitedStmt item := by
  have hsuiting : w.Suiting (program.fold w.catalog w.types pictures w.defs).defs :=
    ⟨h.ready_fold pictures hclean, hslots, hcons⟩
  have hfolds := (fold_fits (hcons.findsFitting _) h.accepted hclean).1
  have hconsts :=
    hsuiting.suitedBody rfl rfl hcomp around_none h.accepted.constants hfolds.constants
  have hothers := hsuiting.suitedBody rfl rfl hcomp around_none h.accepted.others hfolds.others
  intro item hitem
  cases hkind : item.isConstant with
  | true => exact hconsts.of_mem item (mem_filter.mpr ⟨hitem, hkind⟩)
  | false => exact hothers.of_mem item (mem_filter.mpr ⟨hitem, by simp [Stmt.isOther, hkind]⟩)

end Finished

end BlockScript
