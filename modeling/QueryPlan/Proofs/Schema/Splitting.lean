import QueryPlan.Proofs.Schema.Relocation

/-!
# Definitions split into extensions

What a definition declares may be split: it keeps a prefix of each of its lists, and an
extension that comes before all others of the type declares the rest. The document with the
parts makes the same schema as one where the definition declares what both parts declare
together. For every kind of type this is the definition that was split, except that the
interfaces of an interface are lost when they come by an extension.
-/

set_option autoImplicit false

namespace QueryPlan

open QueryPlan.Syntax

namespace Syntax

/-! ## Documents that declare the same -/

/-- Both documents define the same types in the same order, and declare the same of each.
Extensions are in both, or have something to extend in any case. -/
structure SchemaDocument.Agrees (ds ds' : SchemaDocument) : Prop where
  defined : List.Forall₂
    (fun d d' => d.name = d'.name ∧ d.description = d'.description ∧ ds.bodyOf d = ds'.bodyOf d')
    ds.definedTypes ds'.definedTypes
  extensions : ∀ e ∈ ds.extensions, e ∈ ds'.extensions ∨ ds'.Defines e.body.kind e.name
  extensions' : ∀ e ∈ ds'.extensions, e ∈ ds.extensions ∨ ds.Defines e.body.kind e.name
  roots : ∀ kind, ds.rootNames kind = ds'.rootNames kind

namespace SchemaDocument

variable {ds ds' : SchemaDocument}

theorem kind_bodyOf (ds : SchemaDocument) (d : TypeDeclaration) :
    (ds.bodyOf d).kind = d.body.kind :=
  TypeBody.kind_extendedBy _ _

namespace Agrees

theorem symm (h : ds.Agrees ds') : ds'.Agrees ds where
  defined := h.defined.flip.imp fun _ _ hd => ⟨hd.1.symm, hd.2.1.symm, hd.2.2.symm⟩
  extensions := h.extensions'
  extensions' := h.extensions
  roots kind := (h.roots kind).symm

variable (h : ds.Agrees ds')

include h

theorem typeNames_eq : ds.typeNames = ds'.typeNames :=
  congrArg (BuiltinScalar.all.map (·.name) ++ ·)
    (map_eq_of_forall₂ h.defined fun _ _ hd => hd.1)

theorem defines {kind : TypeKind} {name : String} (hname : ds.Defines kind name) :
    ds'.Defines kind name := by
  obtain ⟨d, hd, rfl, rfl⟩ := hname
  obtain ⟨d', hd', hname, -, hbody⟩ := exists_of_mem_left h.defined hd
  refine ⟨d', hd', hname.symm, ?_⟩
  rw [← kind_bodyOf ds', ← hbody, kind_bodyOf]

theorem defines_iff {kind : TypeKind} {name : String} :
    ds.Defines kind name ↔ ds'.Defines kind name :=
  ⟨h.defines, h.symm.defines⟩

theorem closes {b : TypeBody} (hb : ds.Closes b) : ds'.Closes b where
  fields f hf hne := h.typeNames_eq ▸ hb.fields f hf hne
  interfaces i hi := h.defines (hb.interfaces i hi)
  members m hm := h.defines (hb.members m hm)

theorem rootFor_eq (kind : OperationKind) : ds.rootFor kind = ds'.rootFor kind := by
  simp only [rootFor, h.roots, h.defines_iff]

theorem sound (hds : ds.Sound) : ds'.Sound where
  names := h.typeNames_eq ▸ hds.names
  extensions e he := by
    rcases h.extensions' e he with he | hname
    · exact h.defines (hds.extensions e he)
    · exact h.defines hname
  apart d' hd' := by
    obtain ⟨d, hd, -, -, hbody⟩ := exists_of_mem_right h.defined hd'
    exact hbody ▸ hds.apart d hd
  closes d' hd' := by
    obtain ⟨d, hd, -, -, hbody⟩ := exists_of_mem_right h.defined hd'
    exact hbody ▸ h.closes (hds.closes d hd)
  roots kind := h.roots kind ▸ hds.roots kind
  rootObjects kind name hname := h.defines (hds.rootObjects kind name (h.roots kind ▸ hname))
  query := h.rootFor_eq .query ▸ hds.query

/-- They make the same schemas. -/
theorem madeFrom {s : Schema} (hs : s.MadeFrom ds) : s.MadeFrom ds' where
  types := by
    obtain ⟨types, hof, htypes⟩ := hs.types
    refine ⟨types, ⟨hof.keys.trans h.typeNames_eq, hof.builtin, ?_⟩, htypes⟩
    intro d' hd'
    obtain ⟨d, hd, hname, hdescription, hbody⟩ := exists_of_mem_right h.defined hd'
    rw [← hname, ← hdescription, ← hbody]
    exact hof.defined hd
  roots kind := (hs.roots kind).trans (h.rootFor_eq kind)
  implementations := hs.implementations

end Agrees

end SchemaDocument

/-! ## Splitting a definition -/

/-- The lists of a body are cut in two: what is kept, and the rest. -/
inductive TypeBody.Splits : TypeBody → TypeBody → TypeBody → Prop
  | object (is js : List String) (fs gs : List FieldDefinition) :
      Splits (.object (is ++ js) (fs ++ gs)) (.object is fs) (.object js gs)
  | interface (is js : List String) (fs gs : List FieldDefinition) :
      Splits (.interface (is ++ js) (fs ++ gs)) (.interface is fs) (.interface js gs)
  | union (ms ns : List String) : Splits (.union (ms ++ ns)) (.union ms) (.union ns)
  | enum (vs ws : List String) : Splits (.enum (vs ++ ws)) (.enum vs) (.enum ws)
  | inputObject (fs gs : List InputValueDefinition) :
      Splits (.inputObject (fs ++ gs)) (.inputObject fs) (.inputObject gs)

namespace TypeBody.Splits

variable {b kept rest : TypeBody} (h : b.Splits kept rest)

include h

theorem kind_rest : rest.kind = kept.kind := by
  cases h <;> rfl

theorem kept_ne_scalar : kept ≠ .scalar := by
  cases h <;> nofun

/-- Both parts together declare what was split, except for the interfaces of an interface. -/
theorem extendedBy_eq (hinterfaces : b.kind = .interface → rest.interfaces = []) :
    kept.extendedBy [rest] = b := by
  cases h with
  | object is js fs gs => simp [extendedBy, interfaces, fields]
  | interface is js fs gs =>
      obtain rfl : js = [] := hinterfaces rfl
      simp [extendedBy, fields]
  | union ms ns => simp [extendedBy, members]
  | enum vs ws => simp [extendedBy, values]
  | inputObject fs gs => simp [extendedBy, inputs]

end TypeBody.Splits

/-- A document with a definition of it split in two: `kept` stands in the place of the
definition, and the extension comes before all other extensions of the type. -/
structure Split where
  before : SchemaDocument
  definition : TypeDeclaration
  after : SchemaDocument
  kept : TypeDeclaration
  extension : TypeDeclaration
  early : SchemaDocument
  late : SchemaDocument
  kept_name : kept.name = definition.name
  kept_description : kept.description = definition.description
  extension_name : extension.name = definition.name
  bodies : definition.body.Splits kept.body extension.body
  place : early ++ late = before ++ .type kept :: after
  first : ∀ e ∈ SchemaDocument.extensions early, e.name ≠ definition.name

namespace Split

variable (x : Split)

/-- The document with the definition. -/
def whole : SchemaDocument := x.before ++ .type x.definition :: x.after

/-- The document with its parts. -/
def parts : SchemaDocument := x.early ++ .extension x.extension :: x.late

/-- The definition of what both parts declare together. -/
def together : TypeDeclaration :=
  { x.definition with body := x.kept.body.extendedBy [x.extension.body] }

/-- The document with that definition. -/
def merged : SchemaDocument := x.before ++ .type x.together :: x.after

/-- Other definitions than those of scalars are never passed over. -/
theorem definedTypes_cons {d : TypeDeclaration} (hd : d.body ≠ .scalar) (ds : SchemaDocument) :
    SchemaDocument.definedTypes (.type d :: ds) = d :: ds.definedTypes := by
  have hdefined : SchemaDefinition.definedType? (.type d) = some d := by
    obtain ⟨name, description, body, position⟩ := d
    cases body with
    | scalar => exact absurd rfl hd
    | _ => rfl
  rw [SchemaDocument.definedTypes, List.filterMap_cons, hdefined]
  rfl

theorem definedTypes_parts :
    x.parts.definedTypes
      = x.before.definedTypes ++ x.kept :: x.after.definedTypes :=
  calc x.parts.definedTypes
      = SchemaDocument.definedTypes (x.early ++ x.late) := by
        rw [parts, SchemaDocument.definedTypes_append, SchemaDocument.definedTypes_append]
        rfl
    _ = _ := by
        rw [x.place, SchemaDocument.definedTypes_append,
          definedTypes_cons x.bodies.kept_ne_scalar]

theorem definedTypes_merged :
    x.merged.definedTypes
      = x.before.definedTypes
        ++ x.together :: x.after.definedTypes := by
  have hbody : x.together.body ≠ .scalar := by
    intro hscalar
    have hkind := congrArg TypeBody.kind hscalar
    have hne := x.bodies.kept_ne_scalar
    rw [together, TypeBody.kind_extendedBy] at hkind
    cases hkept : x.kept.body with
    | scalar => exact hne hkept
    | _ => rw [hkept] at hkind; cases hkind
  rw [merged, SchemaDocument.definedTypes_append, definedTypes_cons hbody]

theorem rootNames_parts (kind : OperationKind) :
    x.parts.rootNames kind = x.merged.rootNames kind :=
  calc x.parts.rootNames kind
      = SchemaDocument.rootNames (x.early ++ x.late) kind := by
        rw [parts, SchemaDocument.rootNames_append, SchemaDocument.rootNames_append]
        rfl
    _ = x.merged.rootNames kind := by
        rw [x.place, merged, SchemaDocument.rootNames_append, SchemaDocument.rootNames_append]
        rfl

theorem extensions_merged :
    x.merged.extensions
      = x.early.extensions ++ x.late.extensions := by
  rw [← SchemaDocument.extensions_append, x.place, merged, SchemaDocument.extensions_append,
    SchemaDocument.extensions_append]
  rfl

theorem extensions_parts :
    x.parts.extensions
      = x.early.extensions ++ x.extension :: x.late.extensions := by
  rw [parts, SchemaDocument.extensions_append]
  rfl

/-- The type has one more extension, before the others. -/
theorem extensionsOf_parts :
    x.parts.extensionsOf x.definition.name
      = x.extension :: x.merged.extensionsOf x.definition.name := by
  have hearly : x.early.extensions.filter (·.name = x.definition.name) = [] := by
    simpa [List.filter_eq_nil_iff] using x.first
  rw [SchemaDocument.extensionsOf, SchemaDocument.extensionsOf, extensions_parts,
    extensions_merged, List.filter_append, List.filter_append, hearly,
    List.filter_cons_of_pos (by simp [x.extension_name])]
  rfl

theorem extensionsOf_parts_of_ne {name : String} (hne : name ≠ x.definition.name) :
    x.parts.extensionsOf name = x.merged.extensionsOf name := by
  rw [SchemaDocument.extensionsOf, SchemaDocument.extensionsOf, extensions_parts,
    extensions_merged, List.filter_append, List.filter_append,
    List.filter_cons_of_neg (by simpa [x.extension_name] using hne.symm)]

theorem typeNames_parts :
    x.parts.typeNames = x.merged.typeNames := by
  rw [SchemaDocument.typeNames, SchemaDocument.typeNames, definedTypes_parts, definedTypes_merged]
  simp [together, x.kept_name]

/-- The other types are declared as before. -/
theorem bodyOf_parts_of_ne {d : TypeDeclaration} (hne : d.name ≠ x.definition.name) :
    x.parts.bodyOf d = x.merged.bodyOf d := by
  rw [SchemaDocument.bodyOf, SchemaDocument.bodyOf, x.extensionsOf_parts_of_ne hne]

/-- Further extensions extend what both parts declare together. -/
theorem bodyOf_parts_kept :
    x.parts.bodyOf x.kept = x.merged.bodyOf x.together := by
  rw [SchemaDocument.bodyOf, SchemaDocument.bodyOf, x.kept_name, extensionsOf_parts,
    List.map_cons, TypeBody.extendedBy_cons]
  rfl

/-- With distinct names of types, the parts declare what they declare together. -/
theorem agrees (hnames : x.merged.typeNames.Nodup) :
    x.parts.Agrees x.merged := by
  have hothers : ∀ d, d ∈ x.before.definedTypes ∨
      d ∈ x.after.definedTypes → d.name ≠ x.definition.name := by
    have hdefined := hnames.of_append_right
    rw [definedTypes_merged, List.map_append, List.map_cons, List.nodup_middle,
      List.nodup_cons, ← List.map_append] at hdefined
    intro d hd hname
    refine hdefined.1 (List.mem_map.2 ⟨d, List.mem_append.2 hd, hname⟩)
  have hdefined : List.Forall₂
      (fun d d' => d.name = d'.name ∧ d.description = d'.description ∧
        x.parts.bodyOf d = x.merged.bodyOf d')
      x.parts.definedTypes x.merged.definedTypes := by
    rw [definedTypes_parts, definedTypes_merged]
    refine List.rel_append ?_ (.cons ⟨x.kept_name, x.kept_description, x.bodyOf_parts_kept⟩ ?_)
    · exact List.forall₂_same.2 fun d hd => ⟨rfl, rfl, x.bodyOf_parts_of_ne (hothers d (Or.inl hd))⟩
    · exact List.forall₂_same.2 fun d hd => ⟨rfl, rfl, x.bodyOf_parts_of_ne (hothers d (Or.inr hd))⟩
  refine ⟨hdefined, fun e he => ?_, fun e he => ?_, x.rootNames_parts⟩
  · rw [extensions_parts, List.mem_append, List.mem_cons] at he
    rw [extensions_merged, List.mem_append]
    rcases he with he | rfl | he
    · exact Or.inl (Or.inl he)
    · -- the new extension extends the kept part
      refine Or.inr ⟨x.together, ?_, x.extension_name.symm, ?_⟩
      · rw [definedTypes_merged]
        exact List.mem_append_right _ List.mem_cons_self
      · rw [together, TypeBody.kind_extendedBy, x.bodies.kind_rest]
    · exact Or.inl (Or.inr he)
  · rw [extensions_merged, List.mem_append] at he
    rw [extensions_parts, List.mem_append, List.mem_cons]
    exact Or.inl (he.imp_right Or.inr)

theorem sound_parts_iff : x.parts.Sound ↔ x.merged.Sound := by
  constructor
  · intro h
    exact (x.agrees (x.typeNames_parts ▸ h.names)).sound h
  · intro h
    exact (x.agrees h.names).symm.sound h

/-- What is declared together is what was split, unless an interface is to get interfaces by an
extension. -/
theorem merged_eq
    (hinterfaces : x.definition.body.kind = .interface → x.extension.body.interfaces = []) :
    x.merged = x.whole := by
  rw [merged, together, x.bodies.extendedBy_eq hinterfaces]
  rfl

end Split

end Syntax

namespace Schema

/-! ## The schemas of the parts -/

/-- The parts make what is made from the document with what they declare together. -/
theorem placeless_eq_of_merged (x : Split) {ss ss' : List SchemaSource}
    (hss : (SchemaSource.all ss).placeless = x.merged)
    (hss' : (SchemaSource.all ss').placeless = x.parts) :
    ((∃ s, ofSources ss = .ok s) ↔ ∃ s', ofSources ss' = .ok s') ∧
      ∀ {s s'}, ofSources ss = .ok s → ofSources ss' = .ok s' → s.placeless = s'.placeless := by
  refine ⟨?_, fun {s s'} hs hs' => ?_⟩
  · rw [exists_ofSources_iff_placeless, exists_ofSources_iff_placeless, hss, hss']
    exact x.sound_parts_iff.symm
  · have hds := hss ▸ exists_ofSources_iff_placeless.1 ⟨s, hs⟩
    have hmade := hss ▸ madeFrom_placeless hs
    have hmade' := hss' ▸ madeFrom_placeless hs'
    exact hmade.placeless_eq ((x.agrees hds.names).madeFrom hmade')

/-- An extension contributes what it declares: splitting a definition changes nothing but
places, as long as no interface is to get interfaces by the extension. -/
theorem placeless_eq_of_split (x : Split)
    (hinterfaces : x.definition.body.kind = .interface → x.extension.body.interfaces = [])
    {ss ss' : List SchemaSource}
    (hss : (SchemaSource.all ss).placeless = x.whole)
    (hss' : (SchemaSource.all ss').placeless = x.parts) :
    ((∃ s, ofSources ss = .ok s) ↔ ∃ s', ofSources ss' = .ok s') ∧
      ∀ {s s'}, ofSources ss = .ok s → ofSources ss' = .ok s' → s.placeless = s'.placeless := by
  rw [← x.merged_eq hinterfaces] at hss
  exact placeless_eq_of_merged x hss hss'

end Schema

/-- The cat among the pets is split: an extension has the name and the lives. -/
def Pets.split : Split where
  before := [.type ⟨"Dog", none, .object ["Named"] [field "name" "String"], here⟩]
  definition :=
    ⟨"Cat", none, .object ["Named"] [field "name" "String", field "lives" "Int"], here⟩
  after := animals.drop 2 ++ rest.drop 1
  kept := ⟨"Cat", none, .object [] [field "name" "String"], here⟩
  extension := ⟨"Cat", none, .object ["Named"] [field "lives" "Int"], here⟩
  early := animals
  late := rest.drop 1
  kept_name := rfl
  kept_description := rfl
  extension_name := rfl
  bodies := .object [] ["Named"] [field "name" "String"] [field "lives" "Int"]
  place := rfl
  first := by decide

namespace Schema

theorem placeless_eq_of_split_pets : ∃ s s',
    ofSources [⟨none, Pets.split.whole⟩] = .ok s ∧ ofSources Pets.sources = .ok s' ∧
      s.placeless = s'.placeless ∧ (s'.objectType? "Cat").map (·.interfaces) = some ["Named"] := by
  have hinterfaces : Pets.split.definition.body.kind = .interface →
      Pets.split.extension.body.interfaces = [] := nofun
  have hwhole : (SchemaSource.all [⟨none, Pets.split.whole⟩]).placeless
      = Pets.split.whole := rfl
  have hparts : (SchemaSource.all Pets.sources).placeless = Pets.split.parts := rfl
  obtain ⟨hiff, heq⟩ := placeless_eq_of_split Pets.split hinterfaces hwhole hparts
  have hcat : (ofSources Pets.sources).toOption.map
      (fun s => (s.objectType? "Cat").map (·.interfaces)) = some (some ["Named"]) := by
    decide +kernel
  obtain ⟨s', hs'⟩ := Pets.exists_schema
  obtain ⟨s, hs⟩ := hiff.2 ⟨s', hs'⟩
  rw [hs'] at hcat
  exact ⟨s, s', hs, hs', heq hs hs', Option.some.inj hcat⟩

/-! ## Interfaces of interfaces -/

/-- An interface names the interfaces of its definition, whatever its extensions name. -/
theorem MadeFrom.interfaces_of_interface {s : Schema} {ds : SchemaDocument} (h : s.MadeFrom ds)
    {d : TypeDeclaration} (hd : d ∈ ds.definedTypes) (hkind : d.body.kind = .interface) :
    ∃ t, s.type? d.name = some t ∧ t.interfaces = d.body.interfaces := by
  obtain ⟨t, ht, hdecl⟩ := h.type?_defined hd
  refine ⟨_, ht, ?_⟩
  rw [SchemaBuilder.interfaces_withTypename, hdecl.interfaces, SchemaDocument.bodyOf]
  cases hbody : d.body with
  | interface is fs => rfl
  | _ => rw [hbody] at hkind; cases hkind

end Schema

namespace Pets

/-- Birds have names, since they are animals. The definition is split, so that an extension says
that they are. -/
def birds : Split where
  before :=
    [.type ⟨"Query", none, .object [] [field "bird" "Bird"], here⟩,
     .type ⟨"Animal", none, .interface [] [field "name" "String"], here⟩]
  definition :=
    ⟨"Bird", none, .interface ["Animal"] [field "name" "String", field "wings" "Int"], here⟩
  after := []
  kept := ⟨"Bird", none, .interface [] [field "name" "String"], here⟩
  extension := ⟨"Bird", none, .interface ["Animal"] [field "wings" "Int"], here⟩
  early :=
    [.type ⟨"Query", none, .object [] [field "bird" "Bird"], here⟩,
     .type ⟨"Animal", none, .interface [] [field "name" "String"], here⟩,
     .type ⟨"Bird", none, .interface [] [field "name" "String"], here⟩]
  late := []
  kept_name := rfl
  kept_description := rfl
  extension_name := rfl
  bodies := .interface [] ["Animal"] [field "name" "String"] [field "wings" "Int"]
  place := rfl
  first := by decide

end Pets

namespace Schema

/-- Birds are animals by their definition, but not by an extension. -/
theorem interfaces_lost_birds : ∃ s s',
    ofSources [⟨none, Pets.birds.whole⟩] = .ok s ∧ ofSources [⟨none, Pets.birds.parts⟩] = .ok s' ∧
      (s.type? "Bird").map (·.interfaces) = some ["Animal"] ∧
      (s'.type? "Bird").map (·.interfaces) = some [] ∧ s.placeless ≠ s'.placeless := by
  have hwhole : (ofSources [⟨none, Pets.birds.whole⟩]).toOption.map
      (fun s => (s.type? "Bird").map (·.interfaces)) = some (some ["Animal"]) := by
    decide +kernel
  have hparts : (ofSources [⟨none, Pets.birds.parts⟩]).toOption.map
      (fun s => (s.type? "Bird").map (·.interfaces)) = some (some []) := by
    decide +kernel
  have hne : (ofSources [⟨none, Pets.birds.whole⟩]).toOption.map placeless
      ≠ (ofSources [⟨none, Pets.birds.parts⟩]).toOption.map placeless := by
    decide +kernel
  obtain ⟨s, hs⟩ := exists_ok_of_isOk (x := ofSources [⟨none, Pets.birds.whole⟩])
    (by decide +kernel)
  obtain ⟨s', hs'⟩ := exists_ok_of_isOk (x := ofSources [⟨none, Pets.birds.parts⟩])
    (by decide +kernel)
  rw [hs] at hwhole hne
  rw [hs'] at hparts hne
  exact ⟨s, s', hs, hs', Option.some.inj hwhole, Option.some.inj hparts,
    fun heq => hne (congrArg some heq)⟩

end Schema

end QueryPlan
