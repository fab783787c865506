import BlockScript.Folding.Program
import BlockScript.Proofs.Tables
import Mathlib.Data.List.Nodup
import Mathlib.Data.List.Range

/-!
# Names, identities and declarations

The tables of definitions share one space of names and one counter of identities. Definitions are
well formed if no name stands in two tables, every entry is named as its key says, and no two
identities have the same number. Then no two identities are written alike. Every new declaration
keeps definitions well formed if its name is new, and marks of use and known values do not matter.
-/

namespace BlockScript

section

variable {id' : EntityId}

open List

namespace Table

variable {κ α β : Type} (f : α → β) (t : Table κ α)

/-- The values are mapped. -/
@[simp] theorem values_map : (t.map f).values = t.values.map f := by
  simp [values, map, Function.comp_def]

variable [DecidableEq κ]

private theorem findEntry_mapped (key : κ) (entries : List (κ × α)) :
    findEntry key (entries.map fun entry => (entry.1, f entry.2)) =
    (findEntry key entries).map f := by
  induction entries with
  | nil => rfl
  | cons entry rest ih =>
    rw [map_cons, findEntry, findEntry, ih]
    split <;> rfl

private theorem get?_map (key : κ) : (t.map f).get? key = (t.get? key).map f :=
  findEntry_mapped f key t.entries

private theorem map_modify {f : α → α} {g : α → β} (h : ∀ a, g (f a) = g a) (t : Table κ α)
    (key : κ) : (t.modify key f).map g = t.map g := by
  unfold modify map
  rw [map_map]
  congr 1
  refine map_congr_left fun entry _ => ?_
  dsimp only [Function.comp_apply]
  split
  · rw [h]
  · rfl

end Table

namespace EntityId

/-- What identities may stand for. -/
def stems : List String := ["var", "list", "msg", "arg"]

private theorem number_eq_of_text_eq {id : EntityId} (hstem : id.stem = id'.stem)
    (htext : id.text = id'.text) : id.number = id'.number := by
  unfold text at htext
  rw [hstem, String.append_right_inj, Nat.toString_eq_ofList_toDigits,
    Nat.toString_eq_ofList_toDigits] at htext
  have hdigits := congrArg (Nat.ofDigitChars 10 · 0) (String.ofList_injective htext)
  simpa only [Nat.ofDigitChars_ten_toDigits] using hdigits

private theorem stem_eq_of_text_eq {id : EntityId} (hid : id.stem ∈ stems) (hid' : id'.stem ∈ stems)
    (htext : id.text = id'.text) : id.stem = id'.stem := by
  obtain ⟨stem, number⟩ := id
  obtain ⟨stem', number'⟩ := id'
  have hfirst := congrArg (·.toList.head?) htext
  simp only [stems, mem_cons, not_mem_nil, or_false] at hid hid'
  rcases hid with rfl | rfl | rfl | rfl <;> rcases hid' with rfl | rfl | rfl | rfl <;>
    first | rfl | simp [text] at hfirst

end EntityId

namespace Definitions

variable {d d' : Definitions} {name : String} (next : Nat) (params : List (String × DataType))

/-- Definitions without marks of use and known values. -/
def bare (d : Definitions) : Definitions where
  scalars := d.scalars.map ({ · with used := false })
  lists := d.lists.map ({ · with used := false, values := [] })
  constants := d.constants.map ({ · with used := false, value := none })
  functions := d.functions.map ({ · with used := false })
  events := d.events.map ({ · with used := false })
  nextId := d.nextId

/-- The definitions after a declaration has been marked as used. -/
def useAs (d : Definitions) : DeclarationKind → String → Definitions
  | .variable, name => d.useVariable name
  | .list, name => d.useList name
  | .constant, name => d.useConstant name
  | .function, name => d.useFunction name
  | .event, name => d.useEvent name

/-- Use does not count. -/
theorem bare_useAs (d : Definitions) (kind : DeclarationKind) (name : String) :
    (d.useAs kind name).bare = d.bare := by
  cases kind <;>
    simp [bare, useAs, useVariable, useList, useConstant, useFunction, useEvent, Table.map_modify]

/-- Constants do not count. -/
@[simp] theorem bare_setConstant (d : Definitions) (name : String) (value : Value) :
    (d.setConstant name value).bare = d.bare := by
  simp [bare, setConstant, Table.map_modify]

/-- Values of items do not count. -/
@[simp] theorem bare_setItems (d : Definitions) (name : String) (values : List Value) :
    (d.setItems name values).bare = d.bare := by
  simp [bare, setItems, Table.map_modify]

/-- The keys of all tables, each with the name in its entry. -/
def keyed (d : Definitions) : List (String × String) :=
  d.scalars.entries.map (fun e => (e.1, e.2.name)) ++ d.lists.entries.map
    (fun e => (e.1, e.2.name)) ++ d.constants.entries.map (fun e => (e.1, e.2.name)) ++
    d.functions.entries.map (fun e => (e.1, e.2.name)) ++ d.events.entries.map
    (fun e => (e.1, e.2.name))

/-- The keys of all tables. -/
def keys (d : Definitions) : List String := d.keyed.map Prod.fst

/-- The keys of the table of a kind. -/
def keysOf (d : Definitions) : DeclarationKind → List String
  | .variable => d.scalars.keys
  | .list => d.lists.keys
  | .constant => d.constants.keys
  | .function => d.functions.keys
  | .event => d.events.keys

/-- The identities of variables, lists, events and parameters. -/
def identities (d : Definitions) : List EntityId :=
  d.scalars.values.map (·.id) ++ d.lists.values.map (·.id) ++ d.events.values.map (·.id) ++
    d.functions.values.flatMap fun f => f.params.map (·.id)

/-- Whether names and identities are unique, and every entry is what its key says. -/
structure WellFormed (d : Definitions) : Prop where
  nodup : d.keys.Nodup
  named : ∀ p ∈ d.keyed, p.2 = p.1
  numbers : (d.identities.map EntityId.number).Nodup
  fresh : ∀ id ∈ d.identities, id.number < d.nextId
  stems : ∀ id ∈ d.identities, id.stem ∈ EntityId.stems
  procedures : ∀ f ∈ d.functions.values,
    f.procedure = f.name ++ String.join (f.params.map fun param => param.type.procedureMark)

/-- The names are those of all kinds. -/
theorem keys_eq (d : Definitions) :
    d.keys = d.keysOf .variable ++ d.keysOf .list ++ d.keysOf .constant ++ d.keysOf .function ++
      d.keysOf .event := by
  simp [keys, keyed, keysOf, Table.keys, Function.comp_def]

private theorem mem_keys_iff : name ∈ d.keys ↔ ∃ kind, name ∈ d.keysOf kind := by
  rw [keys_eq]
  refine ⟨fun h => ?_, fun ⟨kind, h⟩ => ?_⟩
  · simp only [mem_append] at h
    obtain (((h | h) | h) | h) | h := h <;> exact ⟨_, h⟩
  · cases kind <;> simp [h]

private theorem not_mem_keysOf (h : name ∉ d.keys) (kind : DeclarationKind) :
    name ∉ d.keysOf kind :=
  fun hmem => h (mem_keys_iff.mpr ⟨kind, hmem⟩)

private theorem WellFormed.kind_eq (h : d.WellFormed) {kind kind' : DeclarationKind}
    (hkind : name ∈ d.keysOf kind) (hkind' : name ∈ d.keysOf kind') : kind = kind' := by
  have hnodup := h.nodup
  simp only [keys_eq, nodup_append] at hnodup
  cases kind <;> cases kind' <;> grind

@[simp] private theorem keyed_bare (d : Definitions) : d.bare.keyed = d.keyed := by
  simp [keyed, bare, Table.map, Function.comp_def]

@[simp] private theorem identities_bare (d : Definitions) : d.bare.identities = d.identities := by
  simp [identities, bare, Function.comp_def, flatMap_map]

/-- Marks do not matter. -/
theorem WellFormed.of_bare_eq (h : d.WellFormed) (hbare : d'.bare = d.bare) : d'.WellFormed := by
  have hkeyed : d'.keyed = d.keyed := by rw [← keyed_bare, hbare, keyed_bare]
  have hidents : d'.identities = d.identities := by rw [← identities_bare, hbare, identities_bare]
  have hnext : d'.bare.nextId = d.bare.nextId := by rw [hbare]
  refine ⟨?_, hkeyed ▸ h.named, hidents ▸ h.numbers, ?_, hidents ▸ h.stems, fun f hf => ?_⟩
  · rw [keys, hkeyed]
    exact h.nodup
  · rw [hidents, show d'.nextId = d.nextId from hnext]
    exact h.fresh
  · have hmem : { f with used := false } ∈ d'.bare.functions.values := by
      rw [bare, Table.values_map]
      exact mem_map_of_mem hf
    rw [hbare, bare, Table.values_map] at hmem
    obtain ⟨g, hg, heq⟩ := mem_map.mp hmem
    simp only [Function.mk.injEq] at heq
    rw [← heq.1, ← heq.2.1, ← heq.2.2.1]
    exact h.procedures g hg

/-- Empty tables are well formed. -/
theorem wellFormed_empty : WellFormed {} :=
  ⟨nodup_nil, nofun, nodup_nil, nofun, nofun, nofun⟩

/-- No two identities are written alike. -/
theorem WellFormed.nodup_texts (h : d.WellFormed) : (d.identities.map EntityId.text).Nodup := by
  rw [nodup_map_iff_inj_on (List.Nodup.of_map _ h.numbers)]
  intro id hid id' hid' htext
  have hstem := EntityId.stem_eq_of_text_eq (h.stems id hid) (h.stems id' hid') htext
  exact inj_on_of_nodup_map h.numbers hid hid' (EntityId.number_eq_of_text_eq hstem htext)

private theorem WellFormed.extend (new : List EntityId) (h : d.WellFormed) (hname : name ∉ d.keys)
    (hkeyed : d'.keyed.Perm ((name, name) :: d.keyed))
    (hidents : d'.identities.Perm (new ++ d.identities))
    (hnums : new.map EntityId.number = List.range' d.nextId new.length)
    (hnext : d'.nextId = d.nextId + new.length) (hstems : ∀ id ∈ new, id.stem ∈ EntityId.stems)
    (hprocedures : ∀ f ∈ d'.functions.values, f ∈ d.functions.values ∨
      f.procedure = f.name ++ String.join (f.params.map fun param => param.type.procedureMark)) :
      d'.WellFormed where
  nodup := ((hkeyed.map Prod.fst).nodup_iff).mpr (nodup_cons.mpr ⟨hname, h.nodup⟩)
  named p hp := by
    rcases mem_cons.mp (hkeyed.mem_iff.mp hp) with rfl | hp
    · rfl
    · exact h.named p hp
  numbers := by
    rw [(hidents.map _).nodup_iff, map_append, hnums]
    refine (nodup_range').append h.numbers fun number hnew hold => ?_
    obtain ⟨id, hid, rfl⟩ := mem_map.mp hold
    have := h.fresh id hid
    have := (mem_range'_1.mp hnew).1
    omega
  fresh id hid := by
    rw [hnext]
    rcases mem_append.mp (hidents.mem_iff.mp hid) with hid | hid
    · have hnum := mem_map_of_mem (f := EntityId.number) hid
      rw [hnums] at hnum
      exact (mem_range'_1.mp hnum).2
    · have := h.fresh id hid
      omega
  stems id hid := by
    rcases mem_append.mp (hidents.mem_iff.mp hid) with hid | hid
    · exact hstems id hid
    · exact h.stems id hid
  procedures f hf := (hprocedures f hf).elim (h.procedures f) id

private theorem ids_numberParams :
    (numberParams next params).map (·.id) = (List.range' next params.length).map
    (EntityId.mk "arg") := by
  induction params generalizing next with
  | nil => rfl
  | cons first rest ih =>
    rw [numberParams, map_cons, ih, length_cons, range'_succ, map_cons]

/-- Numbers leave the names. -/
theorem names_numberParams : (numberParams next params).map (·.name) = params.map Prod.fst := by
  induction params generalizing next with
  | nil => rfl
  | cons first rest ih => rw [numberParams, map_cons, ih, map_cons]

private theorem types_numberParams :
    (numberParams next params).map (·.type) = params.map Prod.snd := by
  induction params generalizing next with
  | nil => rfl
  | cons first rest ih => rw [numberParams, map_cons, ih, map_cons]

section Declaring

variable {name : String}

section

variable (h : d.WellFormed) (hname : name ∉ d.keys)

include h hname

private theorem WellFormed.addVariable (type : DataType) (span : Span) :
    (d.addVariable name type span).WellFormed := by
  have hnew : name ∉ d.scalars.keys := not_mem_keysOf hname .variable
  refine h.extend [d.freshId "var"] hname ?_ ?_ rfl rfl (by simp [freshId, EntityId.stems])
    fun f hf => .inl hf
  all_goals
    simp only [keyed, identities, Definitions.addVariable, Table.insert_of_not_mem hnew,
      Table.values, map_append]
    grind

private theorem WellFormed.addList (element : DataType) (span : Span) :
    (d.addList name element span).WellFormed := by
  have hnew : name ∉ d.lists.keys := not_mem_keysOf hname .list
  refine h.extend [d.freshId "list"] hname ?_ ?_ rfl rfl (by simp [freshId, EntityId.stems])
    fun f hf => .inl hf
  all_goals
    simp only [keyed, identities, Definitions.addList, Table.insert_of_not_mem hnew, Table.values,
      map_append]
    grind

/-- A new constant. -/
theorem WellFormed.addConstant (type : DataType)
    (value : Option Value) (span : Span) : (d.addConstant name type value span).WellFormed := by
  have hnew : name ∉ d.constants.keys := not_mem_keysOf hname .constant
  refine h.extend [] hname ?_ (.refl _) rfl rfl nofun fun f hf => .inl hf
  simp only [keyed, Definitions.addConstant, Table.insert_of_not_mem hnew, map_append]
  grind

private theorem WellFormed.addEvent (span : Span) (endLine : Nat) :
    (d.addEvent name span endLine).WellFormed := by
  have hnew : name ∉ d.events.keys := not_mem_keysOf hname .event
  refine h.extend [d.freshId "msg"] hname ?_ ?_ rfl rfl (by simp [freshId, EntityId.stems])
    fun f hf => .inl hf
  all_goals
    simp only [keyed, identities, Definitions.addEvent, Table.insert_of_not_mem hnew, Table.values,
      map_append]
    grind

/-- A new function has a name of its own, and each of its parameters an identity. -/
theorem WellFormed.addFunction (params : List (String × DataType)) (span : Span) (endLine : Nat) :
    (d.addFunction name params span endLine).WellFormed := by
  have hnew : name ∉ d.functions.keys := not_mem_keysOf hname .function
  have hids := ids_numberParams d.nextId params
  refine h.extend ((numberParams d.nextId params).map (·.id)) hname ?_ ?_ ?_ ?_ ?_ fun f hf => ?_
  · simp only [keyed, Definitions.addFunction, Table.insert_of_not_mem hnew, map_append]
    grind
  · simp only [identities, Definitions.addFunction, Table.insert_of_not_mem hnew, Table.values,
      map_append, flatMap_append]
    grind
  · simp [hids, Function.comp_def]
  · simp [hids, Definitions.addFunction]
  · rw [hids]
    intro id hid
    obtain ⟨number, _, rfl⟩ := mem_map.mp hid
    simp [EntityId.stems]
  · simp only [Definitions.addFunction, Table.insert_of_not_mem hnew, Table.values, map_append,
      mem_append, map_cons, map_nil, mem_singleton] at hf
    refine hf.imp_right ?_
    rintro rfl
    have hmarks := congrArg (List.map DataType.procedureMark) (types_numberParams d.nextId params)
    rw [map_map, map_map] at hmarks
    exact congrArg (name ++ String.join ·) hmarks.symm

end

end Declaring

end Definitions

end

/-!
## Declarations that stay

Once a name is declared, its declaration stays as it is, apart from the mark that it is used and
from the values that become known. So definitions grow: declarations are added under new names only.
-/

variable {d : Definitions} {name : String} {kind : DeclarationKind}

/-- What stays of a declaration. Marks of use and known values are left out. -/
inductive Declaration where
  | scalar (v : Variable)
  | list (l : ListVariable)
  | constant (c : Constant)
  | function (f : Function)
  | event (e : CustomEvent)
  deriving DecidableEq

/-- Whether a declaration is that of a variable, a list or a constant. -/
def DeclarationKind.isValue : DeclarationKind → Bool
  | .variable | .list | .constant => true
  | .function | .event => false

/-- Neither of two is there. -/
theorem orElse_eq_none_iff {α : Type} {a b : Option α} :
    (a <|> b) = none ↔ a = none ∧ b = none := by
  cases a <;> simp

namespace Definitions

/-- What stays of the declaration of a name in the table of a kind. -/
def lookup (d : Definitions) (kind : DeclarationKind) (name : String) : Option Declaration :=
  match kind with
  | .variable => (d.scalars.get? name).map fun v => .scalar { v with used := false }
  | .list => (d.lists.get? name).map fun l => .list { l with used := false, values := [] }
  | .constant => (d.constants.get? name).map fun c =>
    .constant { c with used := false, value := none }
  | .function => (d.functions.get? name).map fun f => .function { f with used := false }
  | .event => (d.events.get? name).map fun e => .event { e with used := false }

/-- Whether no table has a name. -/
def Undeclared (d : Definitions) (name : String) : Prop := ∀ kind, d.lookup kind name = none

/-- Only look-ups matter. -/
theorem Undeclared.of_lookup_eq {d' : Definitions} (h : d.Undeclared name)
    (heq : d'.lookup = d.lookup) : d'.Undeclared name := fun kind => by rw [heq, h kind]

/-- A free name has no place. -/
theorem declaredAt?_eq_none_iff : d.declaredAt? name = none ↔ d.Undeclared name := by
  simp only [declaredAt?, orElse_eq_none_iff, Option.map_eq_none_iff]
  constructor
  · rintro ⟨hscalars, hlists, hconsts, hfunctions, hevents⟩ kind
    cases kind <;> simp [lookup, hscalars, hlists, hconsts, hfunctions, hevents]
  · intro h
    have hscalars := h .variable
    have hlists := h .list
    have hconsts := h .constant
    have hfunctions := h .function
    have hevents := h .event
    simp only [lookup, Option.map_eq_none_iff] at hscalars hlists hconsts hfunctions hevents
    exact ⟨hscalars, hlists, hconsts, hfunctions, hevents⟩

/-- What is not found has no key. -/
theorem lookup_eq_none_iff : d.lookup kind name = none ↔ name ∉ d.keysOf kind := by
  cases kind <;> simp [lookup, keysOf, Table.get?_eq_none_iff]

private theorem Undeclared.not_mem_keys (h : d.Undeclared name) : name ∉ d.keys := by
  rw [mem_keys_iff]
  rintro ⟨kind, hmem⟩
  exact lookup_eq_none_iff.mp (h kind) hmem

private theorem lookup_bare (d : Definitions) : d.bare.lookup = d.lookup := by
  funext kind name
  cases kind <;> simp [lookup, bare, Table.get?_map, Function.comp_def]

/-- Use is not looked up. -/
theorem lookup_eq_of_bare_eq {d' : Definitions} (h : d'.bare = d.bare) : d'.lookup = d.lookup := by
  rw [← lookup_bare, h, lookup_bare]

/-- Whether the second definitions have one declaration more than the first. -/
def Adds (kind : DeclarationKind) (name : String) (decl : Declaration) (d d' : Definitions) :
    Prop :=
  ∀ kind' name', d'.lookup kind' name' =
    if kind' = kind ∧ name = name' then some decl else d.lookup kind' name'

/-- Where a name is declared as a kind, and whether it is marked as used. -/
def row? (d : Definitions) (kind : DeclarationKind) (name : String) : Option (Span × Bool) :=
  match kind with
  | .variable => (d.scalars.get? name).map fun v => (v.span, v.used)
  | .list => (d.lists.get? name).map fun l => (l.span, l.used)
  | .constant => (d.constants.get? name).map fun c => (c.span, c.used)
  | .function => (d.functions.get? name).map fun f => (f.span, f.used)
  | .event => (d.events.get? name).map fun e => (e.span, e.used)

/-- Whether the second definitions have one declaration more than the first, at a place, which is
not used yet. -/
structure Inserts (kind : DeclarationKind) (name : String) (decl : Declaration) (span : Span)
    (d d' : Definitions) : Prop where
  adds : d.Adds kind name decl d'
  enters : ∀ kind' name', d'.row? kind' name' =
    if kind' = kind ∧ name = name' then some (span, false) else d.row? kind' name'
  wellFormed : d.WellFormed → name ∉ d.keys → d'.WellFormed

section

variable (d : Definitions) (name : String)

/-- A new variable is found. -/
theorem inserts_addVariable (type : DataType) (span : Span) :
    Inserts .variable name (.scalar { id := d.freshId "var", name, type, span }) span d
      (d.addVariable name type span) where
  adds kind other := by cases kind <;> simp [lookup, addVariable, Table.map_get?_insert]
  enters kind other := by cases kind <;> simp [row?, addVariable, Table.map_get?_insert]
  wellFormed h hname := h.addVariable hname type span

/-- A new list is found. -/
theorem inserts_addList (element : DataType) (span : Span) :
    Inserts .list name (.list { id := d.freshId "list", name, element, span }) span d
      (d.addList name element span) where
  adds kind other := by cases kind <;> simp [lookup, addList, Table.map_get?_insert]
  enters kind other := by cases kind <;> simp [row?, addList, Table.map_get?_insert]
  wellFormed h hname := h.addList hname element span

/-- A new constant is found. -/
theorem inserts_addConstant (type : DataType) (value : Option Value) (span : Span) :
    Inserts .constant name (.constant { name, type, value := none, span }) span d
      (d.addConstant name type value span) where
  adds kind other := by cases kind <;> simp [lookup, addConstant, Table.map_get?_insert]
  enters kind other := by cases kind <;> simp [row?, addConstant, Table.map_get?_insert]
  wellFormed h hname := h.addConstant hname type value span

/-- A new function is found. -/
theorem inserts_addFunction (params : List (String × DataType))
    (span : Span) (endLine : Nat) : ∃ f : Function, f.params = numberParams d.nextId params ∧
      Inserts .function name (.function f) span d (d.addFunction name params span endLine) := by
  let f : Function :=
    { name, params := numberParams d.nextId params, span, endLine,
      procedure := name ++ String.join (params.map fun param => param.2.procedureMark) }
  refine ⟨f, rfl, fun kind other => ?_, fun kind other => ?_, fun h hname =>
    h.addFunction hname params span endLine⟩
  · cases kind <;> simp [lookup, addFunction, Table.map_get?_insert, f]
  · cases kind <;> simp [row?, addFunction, Table.map_get?_insert]

/-- A new event is found. -/
theorem inserts_addEvent (span : Span) (endLine : Nat) :
    Inserts .event name (.event { id := d.freshId "msg", name, span, endLine }) span d
      (d.addEvent name span endLine) where
  adds kind other := by cases kind <;> simp [lookup, addEvent, Table.map_get?_insert]
  enters kind other := by cases kind <;> simp [row?, addEvent, Table.map_get?_insert]
  wellFormed h hname := h.addEvent hname span endLine

/-- Values are not looked up. -/
@[simp] theorem lookup_setConstant (value : Value) : (d.setConstant name value).lookup = d.lookup :=
  lookup_eq_of_bare_eq (d.bare_setConstant name value)

/-- Items are not looked up. -/
@[simp] theorem lookup_setItems (values : List Value) :
    (d.setItems name values).lookup = d.lookup :=
  lookup_eq_of_bare_eq (d.bare_setItems name values)

end

/-- Whether every name is declared in one table at most. -/
def Distinct (d : Definitions) : Prop :=
  ∀ name kind kind', d.lookup kind name ≠ none → d.lookup kind' name ≠ none → kind = kind'

/-- Whether the parameters of every function have identities of their own. -/
def ParamsApart (d : Definitions) : Prop :=
  ∀ name f, d.lookup .function name = some (.function f) →
    (f.params.map fun param => param.id.text).Nodup

/-- Names are distinct. -/
theorem WellFormed.distinct (h : d.WellFormed) : d.Distinct := by
  intro name kind kind' hkind hkind'
  rw [ne_eq, lookup_eq_none_iff, not_not] at hkind hkind'
  exact h.kind_eq hkind hkind'

/-- Whether all declarations of the first definitions are in the second. -/
def Keeps (d d' : Definitions) : Prop :=
  ∀ kind name decl, d.lookup kind name = some decl → d'.lookup kind name = some decl

/-- What is declared stays so. -/
theorem Keeps.lookup_ne_none {d' : Definitions} (h : d.Keeps d') (hd : d.lookup kind name ≠ none) :
    d'.lookup kind name ≠ none := by
  obtain ⟨decl, hdecl⟩ := Option.ne_none_iff_exists'.mp hd
  simp [h kind name decl hdecl]

/-- Nothing is replaced. -/
theorem Adds.keeps {decl : Declaration} {d' : Definitions} (h : d.Adds kind name decl d')
    (hfresh : d.Undeclared name) : d.Keeps d' := by
  intro kind' name' decl' hd
  rw [h, if_neg, hd]
  rintro ⟨_, rfl⟩
  rw [hfresh kind'] at hd
  cases hd

/-- Whether the second definitions come from the first by declarations under new names, of kinds and
names that are allowed. -/
structure Grows (allowed : DeclarationKind → String → Prop) (d d' : Definitions) : Prop where
  /-- Declarations stay. -/
  kept : d.Keeps d'
  /-- New declarations are allowed ones. -/
  added : ∀ kind name, d.lookup kind name = none → d'.lookup kind name ≠ none → allowed kind name
  wellFormed : d.WellFormed → d'.WellFormed

namespace Grows

variable {allowed : DeclarationKind → String → Prop} {d d' d'' : Definitions}

/-- Marks and values add nothing. -/
theorem of_bare_eq (h : d'.bare = d.bare) : Grows allowed d d' where
  kept _ _ _ hd := lookup_eq_of_bare_eq h ▸ hd
  added _ _ hd hd' := absurd (lookup_eq_of_bare_eq h ▸ hd) hd'
  wellFormed hd := hd.of_bare_eq h

/-- Nothing is added. -/
theorem refl (d : Definitions) : Grows allowed d d := of_bare_eq rfl

/-- More is added after more. -/
theorem trans (h : Grows allowed d d') (h' : Grows allowed d' d'') : Grows allowed d d'' where
  kept kind name decl hd := h'.kept kind name decl (h.kept kind name decl hd)
  added kind name hd hd'' := by
    by_cases hd' : d'.lookup kind name = none
    · exact h'.added kind name hd' hd''
    · exact h.added kind name hd hd'
  wellFormed hd := h'.wellFormed (h.wellFormed hd)

/-- More may be allowed. -/
theorem widen {allowed' : DeclarationKind → String → Prop} (h : Grows allowed d d')
    (hallowed : ∀ kind name, allowed kind name → allowed' kind name) : Grows allowed' d d' where
  kept := h.kept
  added kind name hd hd' := hallowed kind name (h.added kind name hd hd')
  wellFormed := h.wellFormed

/-- A declaration under a new name. -/
theorem of_inserts {decl : Declaration} {span : Span} (h : Inserts kind name decl span d d')
    (hfresh : d.Undeclared name) (hallowed : allowed kind name) : Grows allowed d d' where
  kept := h.adds.keeps hfresh
  added kind' name' hd hd' := by
    rw [h.adds] at hd'
    split at hd'
    · rename_i heq
      rw [heq.1, ← heq.2]
      exact hallowed
    · exact absurd hd hd'
  wellFormed hd := h.wellFormed hd hfresh.not_mem_keys

end Grows

end Definitions

end BlockScript
