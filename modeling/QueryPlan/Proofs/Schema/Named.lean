import QueryPlan.Proofs.Schema.Implementations

/-!
# Built schemas are well named

In a schema that a builder has built, every type stands under its own name and so does every
field of a type, and no type names an interface twice. So the concrete types that a position
can have are pairwise distinct, and each of them is found again by its name.
-/

set_option autoImplicit false

namespace QueryPlan

open QueryPlan.Syntax

/-- Every field stands under its own name. -/
def FieldsNamed (fields : OrderedMap String Field) : Prop :=
  ∀ ⦃name field⦄, fields.get? name = some field → field.name = name

/-- The fields of a type stand under their names, and an object names no interface twice. -/
def GraphQLType.WellNamed : GraphQLType → Prop
  | .object t => FieldsNamed t.fields ∧ t.interfaces.Nodup
  | .interface t => FieldsNamed t.fields
  | _ => True

/-- Types stand under their own names and are well named inside. -/
def TypesNamed (types : OrderedMap String GraphQLType) : Prop :=
  ∀ ⦃name type⦄, types.get? name = some type → type.name = name ∧ type.WellNamed

namespace Schema

/-- Types are well named, and no interface lists an object twice. -/
structure WellNamed (s : Schema) : Prop where
  types : TypesNamed s.types
  implementations : ∀ interface, (s.implementationsOf interface).Nodup

theorem MadeFrom.wellNamed {s : Schema} {ds : SchemaDocument} (h : s.MadeFrom ds) :
    s.WellNamed where
  types name u hu := by
    refine ⟨h.name_eq hu, ?_⟩
    cases u with
    | object t => exact ⟨fun _ _ hf => h.field_name hu hf, h.interfaces_nodup hu⟩
    | interface t => exact fun _ _ hf => h.field_name hu hf
    | _ => trivial
  implementations interface := by
    obtain ⟨types, hof, -⟩ := h.types
    rw [h.implementationsOf_eq]
    exact hof.names_nodup.of_append_right.sublist (List.filter_sublist.map _)

theorem Built.wellNamed {s : Schema} (h : s.Built) : s.WellNamed := by
  obtain ⟨ss, hss⟩ := built_iff.1 h
  exact (madeFrom_of_ofSources hss).2.wellNamed

namespace WellNamed

variable {s : Schema}

theorem objectType_name (h : s.WellNamed) {name : String} {t : ObjectType}
    (ht : s.objectType? name = some t) : t.name = name := by
  obtain ⟨u, hu, hobj⟩ := Option.bind_eq_some_iff.1 ht
  cases u with
  | object o =>
      cases hobj
      exact (h.types hu).1
  | _ => cases hobj

/-- An object type of the schema is found again by its name. -/
theorem objectType?_name (h : s.WellNamed) {name : String} {t : ObjectType}
    (ht : s.objectType? name = some t) : s.objectType? t.name = some t := by
  rw [h.objectType_name ht]
  exact ht

theorem field_name (h : s.WellNamed) {name fieldName : String} {t : ObjectType} {field : Field}
    (ht : s.objectType? name = some t) (hf : t.field? fieldName = some field) :
    field.name = fieldName := by
  obtain ⟨u, hu, hobj⟩ := Option.bind_eq_some_iff.1 ht
  cases u with
  | object o =>
      cases hobj
      exact (h.types hu).2.1 hf
  | _ => cases hobj

/-- The names of object types are those that they are looked up by. -/
theorem filterMap_objectType?_name (h : s.WellNamed) (names : List String) :
    (names.filterMap s.objectType?).map (·.name)
      = names.filter fun n => (s.objectType? n).isSome := by
  induction names with
  | nil => rfl
  | cons n names ih =>
      cases ht : s.objectType? n with
      | none => simp [ht, ih]
      | some t => simp [ht, ih, h.objectType_name ht]

theorem objectType?_of_possible (h : s.WellNamed) {name : String} {t : ObjectType}
    (ht : t ∈ s.possibleTypes name) : s.objectType? t.name = some t := by
  unfold possibleTypes at ht
  split at ht
  · rename_i o ho
    obtain rfl := List.mem_singleton.1 ht
    have hobj : s.objectType? name = some t := by
      rw [objectType?, ho]
      rfl
    exact h.objectType?_name hobj
  · obtain ⟨n, _, hn⟩ := List.mem_filterMap.1 ht
    exact h.objectType?_name hn
  · obtain ⟨n, _, hn⟩ := List.mem_filterMap.1 ht
    exact h.objectType?_name hn
  · exact absurd ht List.not_mem_nil

/-- No concrete type is listed twice, not even under two names. -/
theorem possibleTypes_nodup (h : s.WellNamed) (name : String) :
    ((s.possibleTypes name).map (·.name)).Nodup := by
  unfold possibleTypes
  split
  · exact List.nodup_singleton _
  · rw [h.filterMap_objectType?_name]
    exact (h.implementations _).filter _
  · rw [h.filterMap_objectType?_name]
    exact (OrderedMap.nodup_keys _).filter _
  · exact List.nodup_nil

theorem objectType?_of_rootType (h : s.WellNamed) {kind : OperationKind} {t : ObjectType}
    (ht : s.rootType? kind = some t) : s.objectType? t.name = some t := by
  obtain ⟨name, _, hn⟩ := Option.bind_eq_some_iff.1 ht
  exact h.objectType?_name hn

end WellNamed

end Schema

end QueryPlan
