import QueryPlan.Proofs.Schema.Described
import QueryPlan.Proofs.Schema.Outlines

/-!
# Types of inputs

A schema has types for its inputs too, which are the parameters of fields and the fields of input
objects. Nothing makes sure that they are defined: whether a schema is built can be seen from an
outline of the sources that does not show any inputs. So the schema has the types of all its inputs
just when the sources happen to define them (`hasInputTypes_iff`).
-/

set_option autoImplicit false

namespace QueryPlan

open QueryPlan.Syntax

/-! ## What is declared -/

/-- The inputs that a body declares: the parameters of its fields, or its own fields if it is an
input object. Of equal names the last counts, and `__typename` never has parameters. -/
def Syntax.TypeBody.parameters (b : TypeBody) : List Parameter :=
  (b.fields.filter (·.name ≠ "__typename")).flatMap (·.element.parameters.values) ++
    (OrderedMap.ofList (b.inputs.map fun d => (d.name, d.element))).values

namespace GraphQLType

/-- The inputs of a type: the parameters of its fields, or its own fields if it is an input
object. -/
def parameters (t : GraphQLType) : List Parameter :=
  t.fields.values.flatMap (·.parameters.values) ++ t.inputs.values

variable {t : GraphQLType} {name : String} {description : Option String} {b : TypeBody}

/-- The types of the inputs are those that were declared. -/
theorem Declared.forall_parameters (h : t.Declared name description b)
    (P : TypeAnnotation → Prop) :
    (∀ p ∈ (SchemaBuilder.withTypename t).parameters, P p.type) ↔
      ∀ p ∈ b.parameters, P p.type := by
  have hfields : (∀ f ∈ (SchemaBuilder.withTypename t).fields.values,
        ∀ p ∈ f.parameters.values, P p.type) ↔
      ∀ d ∈ b.fields, d.name ≠ "__typename" → ∀ p ∈ d.element.parameters.values, P p.type := by
    refine SchemaBuilder.forall_fields_iff h (P := fun f => ∀ p ∈ f.parameters.values, P p.type)
      (fun f => ?_) fun p hp => absurd hp List.not_mem_nil
    rw [Field.placeless, OrderedMap.values_mapValues, List.forall_mem_map]
    rfl
  have hinputs : (∀ p ∈ (SchemaBuilder.withTypename t).inputs.values, P p.type) ↔
      ∀ p ∈ (OrderedMap.ofList (b.inputs.map fun d => (d.name, d.element))).values, P p.type := by
    rw [← h.inputs, OrderedMap.values_mapValues, List.forall_mem_map]
    cases t <;> rfl
  simp only [parameters, TypeBody.parameters, List.forall_mem_append, List.forall_mem_flatMap,
    List.mem_filter, decide_eq_true_eq, and_imp, hfields, hinputs]

end GraphQLType

/-! ## What is there -/

namespace Schema

variable {ss : List SchemaSource} {s : Schema}

/-- The types of all inputs are types of the schema. -/
def HasInputTypes (s : Schema) : Prop :=
  ∀ name t, s.type? name = some t → ∀ p ∈ t.parameters, ∃ u, s.type? p.type.innermost = some u

theorem MadeFrom.hasInputTypes_iff {ds : SchemaDocument} (h : s.MadeFrom ds) :
    s.HasInputTypes ↔
      ∀ d ∈ ds.definedTypes, ∀ p ∈ (ds.bodyOf d).parameters, p.type.innermost ∈ ds.typeNames := by
  have hdefined : ∀ name, (∃ u, s.type? name = some u) ↔ name ∈ ds.typeNames := fun name => by
    rw [← h.keys_types, OrderedMap.mem_keys_iff]
    rfl
  simp only [HasInputTypes, hdefined]
  constructor
  · intro hall d hd
    obtain ⟨t, ht, hdecl⟩ := h.type?_defined hd
    exact (hdecl.forall_parameters (·.innermost ∈ ds.typeNames)).1 (hall d.name _ ht)
  · intro hall name u hu
    rcases h.type?_cases hu with ⟨b, -, rfl⟩ | ⟨d, hd, t, -, rfl, hdecl⟩
    · exact fun p hp => absurd hp List.not_mem_nil
    · exact (hdecl.forall_parameters (·.innermost ∈ ds.typeNames)).2 (hall d hd)

/-- **The types of inputs are not looked at.** They are types of the schema just when the sources
define them all, and other inputs in the sources, of any types, do not keep a schema from being
built. -/
theorem hasInputTypes_of_ofSources (h : ofSources ss = .ok s) :
    (s.HasInputTypes ↔ ∀ d ∈ (SchemaSource.all ss).definedTypes,
      ∀ p ∈ ((SchemaSource.all ss).bodyOf d).parameters,
        p.type.innermost ∈ (SchemaSource.all ss).typeNames) ∧
    ∀ ss', (SchemaSource.all ss).SameOutline (SchemaSource.all ss') →
      ∃ s', ofSources ss' = .ok s' := by
  obtain ⟨hds, hmade⟩ := madeFrom_of_ofSources h
  exact ⟨hmade.hasInputTypes_iff, fun ss' hsame =>
    exists_ofSources_iff.2 (hsame.sound_iff.1 hds)⟩

end Schema

namespace Pets

/-- An argument or an input field without a default. -/
def input (name : String) (type : TypeRef) : InputValueDefinition := ⟨name, type, none, none, here⟩

/-- Pets that are looked up by what is wanted, which are their names and, as an extension says,
their friends. -/
def lookups (friend : String) : List SchemaSource :=
  let friends := input "friend" (.list (.named friend))
  let wanted := input "wanted" (.nonNull (.named "Wanted"))
  [⟨none, [.extension ⟨"Wanted", none, .inputObject [friends], here⟩]⟩,
   ⟨none,
     [.type ⟨"Query", none, .object [] [⟨"pet", .named "String", [wanted], none, here⟩], here⟩,
      .type ⟨"Wanted", none, .inputObject [input "name" (.named "String")], here⟩]⟩]

/-- The type of the friends does not show in the outline. -/
theorem sameOutline_lookups (friend friend' : String) :
    (SchemaSource.all (lookups friend)).SameOutline (SchemaSource.all (lookups friend')) :=
  .cons (.extension ⟨rfl, rfl, rfl, rfl, rfl⟩) <| .cons (.type ⟨rfl, rfl, rfl, rfl, rfl⟩) <|
    .cons (.type ⟨rfl, rfl, rfl, rfl, rfl⟩) .nil

end Pets

namespace Schema

theorem hasInputTypes_lookups : ∃ s, ofSources (Pets.lookups "Wanted") = .ok s ∧
    s.HasInputTypes ∧ ∃ s', ofSources (Pets.lookups "Nobody") = .ok s' := by
  obtain ⟨s, hs⟩ := exists_ok_of_isOk (x := ofSources (Pets.lookups "Wanted")) (by decide +kernel)
  obtain ⟨hiff, hbuilt⟩ := hasInputTypes_of_ofSources hs
  exact ⟨s, hs, hiff.2 (by decide +kernel), hbuilt _ (Pets.sameOutline_lookups "Wanted" "Nobody")⟩

/-- A schema with an input of a type that it does not have. -/
theorem missing_type_lookups : ∃ s, ofSources (Pets.lookups "Nobody") = .ok s ∧
    s.type? "Nobody" = none ∧ ¬ s.HasInputTypes := by
  obtain ⟨s, hs⟩ := exists_ok_of_isOk (x := ofSources (Pets.lookups "Nobody")) (by decide +kernel)
  have hmade := (madeFrom_of_ofSources hs).2
  have hnone : s.type? "Nobody" = none := by
    rw [type?, OrderedMap.get?_eq_none_iff, hmade.keys_types]
    decide +kernel
  refine ⟨s, hs, hnone, fun hall => ?_⟩
  rw [hmade.hasInputTypes_iff] at hall
  exact absurd hall (by decide +kernel)

end Schema

end QueryPlan
