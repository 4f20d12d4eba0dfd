import QueryPlan.Proofs.Schema.PossibleTypes
import QueryPlan.Proofs.Schema.Relocation

/-!
# The order of definitions

Definitions may come in any order, in any number of sources. Errors are found at different
stages, but together they say that the document is not `Sound`, which does not look at the order
of the definitions. What is built from another order is the same up to order: this goes through
the bodies of the types, since an order of the definitions is one of the extensions of a type.
-/

set_option autoImplicit false

namespace QueryPlan

open QueryPlan.Syntax

namespace Syntax

/-! ## Documents in another order -/

/-- The same is declared, in another order. -/
structure TypeBody.Rearranged (b c : TypeBody) : Prop where
  kind : b.kind = c.kind
  interfaces : b.interfaces.Perm c.interfaces
  fields : b.fields.Perm c.fields
  members : b.members.Perm c.members
  values : b.values.Perm c.values

/-- Extensions add the same in any order. -/
theorem TypeBody.rearranged_extendedBy (b : TypeBody) {es es' : List TypeBody} (h : es.Perm es') :
    (b.extendedBy es).Rearranged (b.extendedBy es') := by
  cases b with
  | scalar => exact ⟨rfl, .nil, .nil, .nil, .nil⟩
  | object is fs =>
      exact ⟨rfl, (h.flatMap_right _).append_left is, (h.flatMap_right _).append_left fs, .nil,
        .nil⟩
  | interface is fs => exact ⟨rfl, .refl _, (h.flatMap_right _).append_left fs, .nil, .nil⟩
  | union ms => exact ⟨rfl, .nil, .nil, (h.flatMap_right _).append_left ms, .nil⟩
  | enum vs => exact ⟨rfl, .nil, .nil, .nil, (h.flatMap_right _).append_left vs⟩
  | inputObject fs => exact ⟨rfl, .nil, .nil, .nil, .nil⟩

theorem TypeBody.Apart.rearranged {b c : TypeBody} (hb : b.Apart) (h : b.Rearranged c) :
    c.Apart where
  interfaces := h.interfaces.nodup_iff.1 hb.interfaces
  fields := (h.fields.map _).nodup_iff.1 hb.fields
  members := h.members.nodup_iff.1 hb.members

namespace SchemaDocument

variable {ds ds' : SchemaDocument}

section Perm

variable (h : ds.Perm ds')

include h

theorem definedTypes_perm : ds.definedTypes.Perm ds'.definedTypes := h.filterMap _

theorem extensions_perm : ds.extensions.Perm ds'.extensions := h.filterMap _

theorem rootNames_perm (kind : OperationKind) : (ds.rootNames kind).Perm (ds'.rootNames kind) :=
  h.filterMap _

theorem typeNames_perm : ds.typeNames.Perm ds'.typeNames :=
  ((definedTypes_perm h).map _).append_left _

theorem defines_congr {kind : TypeKind} {name : String} :
    ds.Defines kind name ↔ ds'.Defines kind name :=
  exists_congr fun _ => and_congr_left fun _ => (definedTypes_perm h).mem_iff

theorem bodyOf_rearranged (d : TypeDeclaration) : (ds.bodyOf d).Rearranged (ds'.bodyOf d) :=
  d.body.rearranged_extendedBy (((extensions_perm h).filter _).map _)

theorem Closes.rearranged {b c : TypeBody} (hb : ds.Closes b) (hbc : b.Rearranged c) :
    ds'.Closes c where
  fields f hf hne := (typeNames_perm h).mem_iff.1 (hb.fields f (hbc.fields.mem_iff.2 hf) hne)
  interfaces i hi := (defines_congr h).1 (hb.interfaces i (hbc.interfaces.mem_iff.2 hi))
  members m hm := (defines_congr h).1 (hb.members m (hbc.members.mem_iff.2 hm))

/-- There is at most one name to choose from. -/
theorem rootFor_congr {kind : OperationKind} (hone : (ds.rootNames kind).length ≤ 1) :
    ds.rootFor kind = ds'.rootFor kind := by
  have hnames : ds.rootNames kind = ds'.rootNames kind := by
    have hperm := rootNames_perm h kind
    match hkind : ds.rootNames kind with
    | [] => rw [hkind] at hperm; exact hperm.nil_eq
    | [name] => rw [hkind] at hperm; exact (List.perm_singleton.1 hperm.symm).symm
    | _ :: _ :: _ => rw [hkind] at hone; simp at hone
  simp only [rootFor, hnames, defines_congr h]

/-- The order of the definitions has no part in whether they fit together. -/
theorem Sound.perm (hds : ds.Sound) : ds'.Sound where
  names := (typeNames_perm h).nodup_iff.1 hds.names
  extensions e he := (defines_congr h).1 (hds.extensions e ((extensions_perm h).mem_iff.2 he))
  apart d hd :=
    (hds.apart d ((definedTypes_perm h).mem_iff.2 hd)).rearranged (bodyOf_rearranged h d)
  closes d hd :=
    (hds.closes d ((definedTypes_perm h).mem_iff.2 hd)).rearranged h (bodyOf_rearranged h d)
  roots kind := (rootNames_perm h kind).length_eq ▸ hds.roots kind
  rootObjects kind name hname :=
    (defines_congr h).1 (hds.rootObjects kind name ((rootNames_perm h kind).mem_iff.2 hname))
  query := rootFor_congr h (hds.roots .query) ▸ hds.query

end Perm

end SchemaDocument

end Syntax

/-! ## Schemas in another order -/

/-- The same type, with its contents in another order. Fields differ in their locations only;
what an input object holds is left open, since of input fields of one name the last counts. -/
structure GraphQLType.Rearranged (t u : GraphQLType) : Prop where
  name : t.name = u.name
  kind : t.kind = u.kind
  description : t.description = u.description
  fields : ∀ name, (t.fields.get? name).map Field.placeless
    = (u.fields.get? name).map Field.placeless
  interfaces : t.interfaces.Perm u.interfaces
  members : t.members.keys.Perm u.members.keys
  values : t.values.Perm u.values

theorem GraphQLType.Rearranged.refl (t : GraphQLType) : t.Rearranged t :=
  ⟨rfl, rfl, rfl, fun _ => rfl, .refl _, .refl _, .refl _⟩

namespace SchemaBuilder

variable {t u : GraphQLType} {name : String} {description : Option String} {b c : TypeBody}

theorem description_withTypename (t : GraphQLType) :
    (withTypename t).description = t.description := by
  cases t <;> rfl

/-- Types of one kind both have the field `__typename`, or neither has. -/
theorem get?_typename_congr (h : t.kind = u.kind) :
    (withTypename t).fields.get? "__typename" = (withTypename u).fields.get? "__typename" := by
  cases t with
  | object t =>
      cases u <;> cases h
      exact (OrderedMap.get?_insert_self _ _ _).trans (OrderedMap.get?_insert_self _ _ _).symm
  | interface t =>
      cases u <;> cases h
      exact (OrderedMap.get?_insert_self _ _ _).trans (OrderedMap.get?_insert_self _ _ _).symm
  | builtin s => cases u <;> cases h; rfl
  | enum t => cases u <;> cases h; rfl
  | inputObject t => cases u <;> cases h; rfl
  | scalar t => cases u <;> cases h; rfl
  | union t => cases u <;> cases h; rfl

/-- What is declared in another order is the same type in another order. -/
theorem rearranged_withTypename (ht : t.Declared name description b)
    (hu : u.Declared name description c) (h : b.Rearranged c) :
    (withTypename t).Rearranged (withTypename u) where
  name := by rw [name_withTypename, name_withTypename, ht.name, hu.name]
  kind := by rw [kind_withTypename, kind_withTypename, ht.kind, hu.kind, h.kind]
  description := by
    rw [description_withTypename, description_withTypename, ht.description, hu.description]
  fields fieldName := by
    by_cases hne : fieldName = "__typename"
    · subst hne
      rw [get?_typename_congr (ht.kind.trans (h.kind.trans hu.kind.symm))]
    · rw [get?_fields_withTypename t hne, get?_fields_withTypename u hne]
      ext f
      rw [get?_fields_iff ht, get?_fields_iff hu]
      simp only [h.fields.mem_iff]
  interfaces := by
    rw [interfaces_withTypename, interfaces_withTypename, ht.interfaces, hu.interfaces]
    exact h.interfaces
  members := by
    rw [members_withTypename, members_withTypename, ht.members, hu.members]
    exact h.members
  values := by
    rw [values_withTypename, values_withTypename, ht.values, hu.values]
    exact h.values

end SchemaBuilder

namespace Schema

/-- The same schema in another order. -/
structure Rearranged (s s' : Schema) : Prop where
  names : s.types.keys.Perm s'.types.keys
  types : ∀ name, Option.Rel GraphQLType.Rearranged (s.type? name) (s'.type? name)
  roots : ∀ kind, s.rootName? kind = s'.rootName? kind
  possible : ∀ name object, s.isPossibleType name object = s'.isPossibleType name object

variable {s s' : Schema} {ds ds' : SchemaDocument}

namespace MadeFrom

variable (h : s.MadeFrom ds) (h' : s'.MadeFrom ds') (hperm : ds.Perm ds')

include h h' hperm

theorem type?_rearranged (name : String) :
    Option.Rel GraphQLType.Rearranged (s.type? name) (s'.type? name) := by
  cases hu : s.type? name with
  | none =>
      have hnone : name ∉ s'.types.keys := by
        rw [h'.keys_types, ← (SchemaDocument.typeNames_perm hperm).mem_iff, ← h.keys_types]
        exact OrderedMap.get?_eq_none_iff.1 hu
      rw [show s'.type? name = none from OrderedMap.get?_eq_none_iff.2 hnone]
      exact .none
  | some u =>
      rcases h.type?_cases hu with ⟨b, rfl, rfl⟩ | ⟨d, hd, t, rfl, rfl, hdecl⟩
      · rw [h'.type?_builtin]
        exact .some (GraphQLType.Rearranged.refl _)
      · obtain ⟨t', ht', hdecl'⟩ :=
          h'.type?_defined ((SchemaDocument.definedTypes_perm hperm).mem_iff.1 hd)
        rw [ht']
        exact .some (SchemaBuilder.rearranged_withTypename hdecl hdecl'
          (SchemaDocument.bodyOf_rearranged hperm d))

/-- The same objects implement an interface. -/
theorem implementationsOf_perm (i : String) :
    (s.implementationsOf i).Perm (s'.implementationsOf i) := by
  rw [h.implementationsOf_eq, h'.implementationsOf_eq]
  have himplements : ∀ d, ds.Implements d i ↔ ds'.Implements d i := by
    intro d
    have hbody := SchemaDocument.bodyOf_rearranged hperm d
    rw [SchemaDocument.implements_iff, SchemaDocument.implements_iff, hbody.kind,
      hbody.interfaces.mem_iff]
  simp only [himplements]
  exact ((SchemaDocument.definedTypes_perm hperm).filter _).map _

theorem mem_possibleNames_congr (name object : String) :
    object ∈ s.possibleNames name ↔ object ∈ s'.possibleNames name := by
  have hrel := h.type?_rearranged h' hperm name
  unfold possibleNames
  generalize s.type? name = x at hrel
  generalize s'.type? name = y at hrel
  cases hrel with
  | none => rfl
  | @some t u htu =>
      have hkind := htu.kind
      have hname := htu.name
      cases t with
      | object t =>
          cases u <;> cases hkind
          exact (congrArg (fun n => object ∈ [n]) hname).to_iff
      | interface t =>
          cases u <;> cases hkind
          dsimp only [GraphQLType.name] at hname ⊢
          rw [hname]
          exact (h.implementationsOf_perm h' hperm _).mem_iff
      | union t =>
          cases u <;> cases hkind
          exact htu.members.mem_iff
      | builtin b => cases u <;> cases hkind; rfl
      | enum t => cases u <;> cases hkind; rfl
      | inputObject t => cases u <;> cases hkind; rfl
      | scalar t => cases u <;> cases hkind; rfl

theorem rearranged (hds : ds.Sound) : s.Rearranged s' where
  names := by
    rw [h.keys_types, h'.keys_types]
    exact SchemaDocument.typeNames_perm hperm
  types := h.type?_rearranged h' hperm
  roots kind := by
    rw [h.roots, h'.roots]
    exact SchemaDocument.rootFor_congr hperm (hds.roots kind)
  possible name object := by
    rw [Bool.eq_iff_iff, isPossibleType_iff, isPossibleType_iff]
    exact h.mem_possibleNames_congr h' hperm name object

end MadeFrom

/-- However the same definitions are ordered and split into sources, and wherever they stand in
them, they make a schema or do not, and the schemas differ in nothing but order. -/
theorem rearranged_of_perm {ss ss' : List SchemaSource}
    (hperm : (SchemaSource.all ss).placeless.Perm
      (SchemaSource.all ss').placeless) :
    ((∃ s, ofSources ss = .ok s) ↔ ∃ s', ofSources ss' = .ok s') ∧
      ∀ {s s'}, ofSources ss = .ok s → ofSources ss' = .ok s' → s.Rearranged s' := by
  refine ⟨?_, fun {s s'} hs hs' => ?_⟩
  · rw [exists_ofSources_iff_placeless, exists_ofSources_iff_placeless]
    exact ⟨fun h => h.perm hperm, fun h => h.perm hperm.symm⟩
  · have hds := exists_ofSources_iff_placeless.1 ⟨s, hs⟩
    exact (madeFrom_placeless hs).rearranged (madeFrom_placeless hs') hperm hds

/-- The pets in one source and the other way round, where extensions come after what they
extend and types come before what they refer to. -/
theorem rearranged_pets : ∃ s s', ofSources Pets.sources = .ok s ∧
    ofSources Pets.reversed = .ok s' ∧ s.Rearranged s' ∧ s.types.keys ≠ s'.types.keys := by
  have hall : SchemaSource.all Pets.reversed = (SchemaSource.all Pets.sources).reverse := rfl
  have hperm : (SchemaSource.all Pets.sources).placeless.Perm
      (SchemaSource.all Pets.reversed).placeless := by
    rw [hall]
    exact (List.reverse_perm _).symm.map _
  obtain ⟨hiff, hrearranged⟩ := rearranged_of_perm hperm
  have hkeys : (ofSources Pets.sources).toOption.map (·.types.keys)
      ≠ (ofSources Pets.reversed).toOption.map (·.types.keys) := by
    decide +kernel
  obtain ⟨s, hs⟩ := Pets.exists_schema
  obtain ⟨s', hs'⟩ := hiff.1 ⟨s, hs⟩
  rw [hs, hs'] at hkeys
  exact ⟨s, s', hs, hs', hrearranged hs hs', by simpa [Except.toOption] using hkeys⟩

end Schema

end QueryPlan
