import QueryPlan.Proofs.Schema.PossibleTypes

/-!
# Built schemas are closed

Whatever was loaded, a schema that has been built refers to nothing that it does not have, and
everything stands under its own name. The references were checked with all extensions in place
and with the field `__typename`; the root types and the table of implementations come later, and
look at the types only.
-/

set_option autoImplicit false

namespace QueryPlan

open QueryPlan.Syntax

namespace Schema

/-- Every name in the schema leads to what it stands for. -/
structure Closed (s : Schema) : Prop where
  /-- Types stand under their own names. -/
  name : ∀ {name t}, s.type? name = some t → t.name = name
  builtin : ∀ b : BuiltinScalar, s.type? b.name = some (.builtin b)
  /-- The name of the concrete type can be asked for, and is never null. -/
  typename : ∀ {name t}, s.type? name = some t → t.kind = .object ∨ t.kind = .interface →
    ∃ f, t.fields.get? "__typename" = some f ∧ f.type = .named "String" false
  field_name : ∀ {name t}, s.type? name = some t →
    ∀ {fieldName f}, t.fields.get? fieldName = some f → f.name = fieldName
  field_type : ∀ {name t}, s.type? name = some t →
    ∀ f ∈ t.fields.values, ∃ u, s.type? f.type.innermost = some u
  interfaces : ∀ {name t}, s.type? name = some t →
    ∀ i ∈ t.interfaces, ∃ u, s.type? i = some (.interface u)
  interfaces_nodup : ∀ {name t}, s.type? name = some t → t.interfaces.Nodup
  members : ∀ {name t}, s.type? name = some t →
    ∀ m ∈ t.members.keys, ∃ o, s.type? m = some (.object o)
  roots : ∀ {kind name}, s.rootName? kind = some name → ∃ o, s.type? name = some (.object o)
  /-- The table of implementations is one of the interfaces, and lists objects. -/
  implementations_keys : ∀ i, i ∈ s.implementations.keys ↔ ∃ u, s.type? i = some (.interface u)
  implementations : ∀ {i names}, s.implementations.get? i = some names →
    ∀ n ∈ names, ∃ o, s.type? n = some (.object o)

namespace MadeFrom

open SchemaBuilder

variable {s : Schema} {ds : SchemaDocument} (h : s.MadeFrom ds)

include h

theorem field_type (hds : ds.Sound) {name : String} {u : GraphQLType}
    (hu : s.type? name = some u) :
    ∀ f ∈ u.fields.values, ∃ t, s.type? f.type.innermost = some t := by
  simp only [type?, ← OrderedMap.mem_keys_iff]
  rcases h.type?_cases hu with ⟨b, -, rfl⟩ | ⟨d, hd, t, -, rfl, hdecl⟩
  · exact fun f hf => absurd hf List.not_mem_nil
  · have hstring : "String" ∈ s.types.keys := OrderedMap.mem_keys_iff.2 ⟨_, h.type?_builtin .string⟩
    rw [forall_fields_withTypename hdecl hstring, h.keys_types]
    exact (hds.closes d hd).fields

/-- A root type is named by a block, and an object then, or else is one that has the usual
name. -/
theorem root_object (hds : ds.Sound) {kind : OperationKind} {name : String}
    (hname : s.rootName? kind = some name) : ds.Defines .object name := by
  have hobjects := hds.rootObjects kind
  rw [h.roots, SchemaDocument.rootFor] at hname
  split at hname
  · rename_i hnames
    cases hname
    exact hobjects name (hnames ▸ List.mem_cons_self)
  · split at hname
    · cases hname
      assumption
    · cases hname

end MadeFrom

/-- Every schema that is built, after any loads, is closed. -/
theorem closed_of_built {s : Schema} (hs : s.Built) : s.Closed := by
  obtain ⟨ss, hss⟩ := built_iff.1 hs
  obtain ⟨hds, h⟩ := madeFrom_of_ofSources hss
  exact {
    name := h.name_eq
    builtin := h.type?_builtin
    typename := by
      intro name u hu hkind
      rcases h.type?_cases hu with ⟨b, -, rfl⟩ | ⟨d, -, t, -, rfl, -⟩
      · rcases hkind with hkind | hkind <;> cases hkind
      · refine ⟨.typename, ?_, rfl⟩
        cases t with
        | object t => exact OrderedMap.get?_insert_self _ _ _
        | interface t => exact OrderedMap.get?_insert_self _ _ _
        | _ => rcases hkind with hkind | hkind <;> cases hkind
    field_name := fun hu => h.field_name hu
    field_type := h.field_type hds
    interfaces := by
      intro name u hu i hi
      rw [h.exists_interface_iff]
      rcases h.type?_cases hu with ⟨b, -, rfl⟩ | ⟨d, hd, t, -, rfl, hdecl⟩
      · exact absurd hi List.not_mem_nil
      · rw [SchemaBuilder.interfaces_withTypename, hdecl.interfaces] at hi
        exact (hds.closes d hd).interfaces i hi
    interfaces_nodup := h.interfaces_nodup
    members := by
      intro name u hu m hm
      rw [h.exists_object_iff]
      rcases h.type?_cases hu with ⟨b, -, rfl⟩ | ⟨d, hd, t, -, rfl, hdecl⟩
      · exact absurd hm List.not_mem_nil
      · rw [SchemaBuilder.members_withTypename, hdecl.members] at hm
        exact (hds.closes d hd).members m hm
    roots := fun hname => h.exists_object_iff.2 (h.root_object hds hname)
    implementations_keys := fun i => by
      rw [h.exists_interface_iff, h.mem_keys_implementations hds]
    implementations := by
      intro i names hnames n hn
      have himplementations : s.implementationsOf i = names := by
        rw [implementationsOf, hnames]
        rfl
      rw [← himplementations, h.implementationsOf_eq, List.mem_map] at hn
      obtain ⟨d, hd, rfl⟩ := hn
      rw [List.mem_filter, decide_eq_true_eq] at hd
      exact h.exists_object_iff.2 ⟨d, hd.1, rfl, hd.2.1⟩ }

/-- Fish declare a field `__typename` of a type that is defined nowhere. -/
theorem closed_pets : ∃ s : Schema, s.Built ∧ s.Closed := by
  obtain ⟨s, hs⟩ := Pets.exists_schema
  have hbuilt := built_iff.2 ⟨_, hs⟩
  exact ⟨s, hbuilt, closed_of_built hbuilt⟩

end Schema

end QueryPlan
