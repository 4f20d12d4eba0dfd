import QueryPlan.Proofs.Schema.Implementations
import QueryPlan.Proofs.Schema.Outlines

/-!
# Places do not matter

Whether a document is sound, and which schema is made from it, can be seen from the document
without its places, which are not in its outline. So two documents that differ in nothing else
lead to schemas that differ in nothing but locations.
-/

set_option autoImplicit false

namespace QueryPlan

open QueryPlan.Syntax

namespace Syntax

variable {ds : SchemaDocument}

/-- Elements do not remember where their definitions stand. -/
theorem TypeBody.elements_placeless (b : TypeBody) :
    (b.placeless.fields.map fun d => (d.name, d.element))
      = b.fields.map fun d => (d.name, d.element) := by
  simp [Function.comp_def]

theorem TypeBody.sameOutline_placeless (b : TypeBody) : b.SameOutline b.placeless where
  kind := b.kind_placeless.symm
  interfaces := b.interfaces_placeless.symm
  fields := by simp [Function.comp_def]
  members := b.members_placeless.symm

theorem SchemaDefinition.sameOutline_placeless (x : SchemaDefinition) :
    x.SameOutline x.placeless := by
  cases x with
  | roots r => exact .roots (funext fun kind => by cases kind <;> rfl)
  | type d => exact .type ⟨rfl, d.body.sameOutline_placeless⟩
  | extension d => exact .extension ⟨rfl, d.body.sameOutline_placeless⟩
  | directive name => exact .directive

namespace SchemaDocument

theorem sameOutline_placeless (ds : SchemaDocument) : ds.SameOutline ds.placeless :=
  List.forall₂_map_right_iff.2 (List.forall₂_same.2 fun x _ => x.sameOutline_placeless)

theorem typeNames_placeless (ds : SchemaDocument) :
    ds.placeless.typeNames = ds.typeNames :=
  (sameOutline_placeless ds).typeNames.symm

theorem bodyOf_placeless (ds : SchemaDocument) (d : TypeDeclaration) :
    ds.placeless.bodyOf d.placeless = (ds.bodyOf d).placeless := by
  rw [bodyOf, bodyOf, TypeBody.placeless_extendedBy, TypeDeclaration.name_placeless,
    extensionsOf_placeless, List.map_map, List.map_map]
  rfl

theorem rootFor_placeless (ds : SchemaDocument) (kind : OperationKind) :
    ds.placeless.rootFor kind = ds.rootFor kind :=
  ((sameOutline_placeless ds).rootFor kind).symm

/-- A document is sound wherever its definitions stand. -/
theorem sound_placeless : ds.placeless.Sound ↔ ds.Sound :=
  (sameOutline_placeless ds).sound_iff.symm

end SchemaDocument

end Syntax

/-! ## Schemas -/

/-- What declares a type does so from any place. -/
theorem GraphQLType.Declared.relocate {t : GraphQLType} {name : String}
    {description : Option String} {b : TypeBody} (h : t.Declared name description b) :
    t.Declared name description b.placeless where
  name := h.name
  description := h.description
  kind := h.kind.trans b.kind_placeless.symm
  interfaces := h.interfaces.trans b.interfaces_placeless.symm
  interfaces_nodup := h.interfaces_nodup
  fields := h.fields.trans b.elements_placeless.symm
  members := h.members.trans b.members_placeless.symm
  values := h.values.trans b.values_placeless.symm
  inputs := by
    rw [h.inputs, TypeBody.inputs_placeless, List.map_map]
    rfl

namespace Schema

variable {s : Schema} {ds : SchemaDocument} {ss : List SchemaSource}

/-- A schema is made from a document wherever its definitions stand. -/
theorem MadeFrom.relocate (h : s.MadeFrom ds) : s.MadeFrom ds.placeless where
  types := by
    obtain ⟨types, hof, htypes⟩ := h.types
    refine ⟨types, ⟨?_, hof.builtin, ?_⟩, htypes⟩
    · rw [SchemaDocument.typeNames_placeless, hof.keys]
    · intro d hd
      rw [SchemaDocument.definedTypes_placeless, List.mem_map] at hd
      obtain ⟨d, hd, rfl⟩ := hd
      obtain ⟨t, ht, hdecl⟩ := hof.defined hd
      refine ⟨t, ht, ?_⟩
      rw [SchemaDocument.bodyOf_placeless]
      exact hdecl.relocate
  roots kind := by rw [SchemaDocument.rootFor_placeless, h.roots]
  implementations := h.implementations

/-- Sources make a schema exactly when their definitions are sound, places left aside. -/
theorem exists_ofSources_iff_placeless :
    (∃ s, ofSources ss = .ok s) ↔ (SchemaSource.all ss).placeless.Sound :=
  exists_ofSources_iff.trans SchemaDocument.sound_placeless.symm

theorem madeFrom_placeless (h : ofSources ss = .ok s) :
    s.MadeFrom (SchemaSource.all ss).placeless :=
  (madeFrom_of_ofSources h).2.relocate

end Schema

/-! ## Equal up to places -/

namespace SchemaBuilder

/-- The field `__typename` has no place in the sources. -/
theorem placeless_withTypename (t : GraphQLType) :
    (withTypename t).placeless = withTypename t.placeless := by
  have htypename : Field.typename.placeless = .typename := rfl
  cases t with
  | object t =>
      simp only [withTypename, GraphQLType.placeless, OrderedMap.mapValues_insert, htypename]
  | interface t =>
      simp only [withTypename, GraphQLType.placeless, OrderedMap.mapValues_insert, htypename]
  | _ => rfl

/-- Noting implementations does not look at places. -/
theorem noteImplementations_placeless (m : OrderedMap String (List String)) (t : GraphQLType) :
    noteImplementations m t.placeless = noteImplementations m t := by
  cases t <;> rfl

theorem foldl_noteImplementations_placeless (types : OrderedMap String GraphQLType) :
    (types.mapValues fun _ t => t.placeless).values.foldl noteImplementations .empty
      = types.values.foldl noteImplementations .empty := by
  rw [OrderedMap.values, OrderedMap.values, OrderedMap.mapValues, List.map_map, List.foldl_map,
    List.foldl_map]
  simp only [Function.comp_apply, noteImplementations_placeless]

end SchemaBuilder

namespace Schema

open SchemaBuilder

variable {s s' : Schema} {ds : SchemaDocument}

/-- A document determines its schema up to places. -/
theorem MadeFrom.placeless_eq (h : s.MadeFrom ds) (h' : s'.MadeFrom ds) :
    s.placeless = s'.placeless := by
  have htypes : (s.types.mapValues fun _ t => t.placeless)
      = s'.types.mapValues fun _ t => t.placeless := by
    refine OrderedMap.ext_get? ?_ fun name => ?_
    · rw [OrderedMap.keys_mapValues, OrderedMap.keys_mapValues, h.keys_types, h'.keys_types]
    · rw [OrderedMap.get?_mapValues, OrderedMap.get?_mapValues]
      by_cases hname : name ∈ s.types.keys
      · obtain ⟨u, hu⟩ := OrderedMap.mem_keys_iff.1 hname
        rw [hu]
        rcases h.type?_cases hu with ⟨b, rfl, rfl⟩ | ⟨d, hd, t, rfl, rfl, hdecl⟩
        · exact congrArg _ (h'.type?_builtin b).symm
        · obtain ⟨t', ht', hdecl'⟩ := h'.type?_defined hd
          rw [show s'.types.get? d.name = _ from ht', Option.map_some, Option.map_some,
            placeless_withTypename, placeless_withTypename, hdecl.placeless_eq hdecl']
      · have hname' : name ∉ s'.types.keys := by rwa [h'.keys_types, ← h.keys_types]
        rw [OrderedMap.get?_eq_none_iff.2 hname, OrderedMap.get?_eq_none_iff.2 hname']
  have hroots : ∀ kind, s.rootName? kind = s'.rootName? kind := fun kind => by
    rw [h.roots, h'.roots]
  have himplementations : s.implementations = s'.implementations := by
    rw [h.implementations, h'.implementations, ← foldl_noteImplementations_placeless, htypes,
      foldl_noteImplementations_placeless]
  have hquery : s.query = s'.query := Option.some.inj (hroots .query)
  have hmutation : s.mutation = s'.mutation := hroots .mutation
  have hsubscription : s.subscription = s'.subscription := hroots .subscription
  simp only [placeless, htypes, hquery, hmutation, hsubscription, himplementations]

end Schema

end QueryPlan
