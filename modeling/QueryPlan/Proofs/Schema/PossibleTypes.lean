import QueryPlan.Proofs.Schema.Named

/-!
# Possible types

Whether a type condition applies is decided by a test, and what is compiled for a position is
listed by an enumeration. Both read the names of the possible types: of an object its own, of an
interface those in the table of implementations, of a union those of its members. Checks at
building time see to it that all of these are objects of the schema, so that the enumeration
loses none of them.
-/

set_option autoImplicit false

namespace QueryPlan

open QueryPlan.Syntax

namespace Schema

/-- The names of the possible types. -/
def possibleNames (s : Schema) (name : String) : List String :=
  match s.type? name with
  | some (.object t) => [t.name]
  | some (.interface t) => s.implementationsOf t.name
  | some (.union t) => t.members.keys
  | _ => []

variable {s : Schema} {ds : SchemaDocument}

/-- The test asks for one of the names. -/
theorem isPossibleType_iff {name object : String} :
    s.isPossibleType name object = true ↔ object ∈ s.possibleNames name := by
  unfold isPossibleType possibleNames
  cases s.type? name with
  | none => simp
  | some u =>
      cases u with
      | object t => simp [eq_comm]
      | interface t => simp
      | union t => exact OrderedMap.contains_iff
      | _ => simp

namespace MadeFrom

variable (h : s.MadeFrom ds)

include h

theorem exists_objectType? {name : String} (hname : ds.Defines .object name) :
    ∃ o, s.objectType? name = some o := by
  obtain ⟨o, ho⟩ := h.exists_object_iff.2 hname
  exact ⟨o, by rw [objectType?, ho]; rfl⟩

/-! ## The names, by kind of type -/

theorem possibleNames_object {name : String} (hname : ds.Defines .object name) :
    s.possibleNames name = [name] := by
  obtain ⟨o, ho⟩ := h.exists_object_iff.2 hname
  rw [possibleNames, ho]
  exact congrArg (fun n => [n]) (h.name_eq ho)

theorem possibleNames_interface {name : String} (hname : ds.Defines .interface name) :
    s.possibleNames name = (ds.definedTypes.filter (ds.Implements · name)).map (·.name) := by
  obtain ⟨i, hi⟩ := h.exists_interface_iff.2 hname
  have hself : i.name = name := h.name_eq hi
  rw [possibleNames, hi, ← h.implementationsOf_eq, ← hself]

/-- The members that a union has by its definition, and those that extensions add. -/
theorem possibleNames_union {d : TypeDeclaration} (hd : d ∈ ds.definedTypes)
    (hkind : d.body.kind = .union) :
    s.possibleNames d.name
      = d.body.members ++ (ds.extensionsOf d.name).flatMap (·.body.members) := by
  obtain ⟨t, ht, hdecl⟩ := h.type?_defined hd
  have hunion := hdecl.kind
  have hmembers := hdecl.members
  rw [SchemaDocument.bodyOf, TypeBody.kind_extendedBy, hkind] at hunion
  cases t <;> cases hunion
  rw [possibleNames, ht]
  refine hmembers.trans ?_
  rw [SchemaDocument.bodyOf]
  cases hbody : d.body with
  | union ms => simp [TypeBody.extendedBy, TypeBody.members, List.flatMap_map]
  | _ => rw [hbody] at hkind; cases hkind

theorem possibleNames_other {name : String} (hobject : ¬ ds.Defines .object name)
    (hinterface : ¬ ds.Defines .interface name) (hunion : ¬ ds.Defines .union name) :
    s.possibleNames name = [] := by
  unfold possibleNames
  split
  · rename_i hu
    exact absurd (h.exists_object_iff.1 ⟨_, hu⟩) hobject
  · rename_i hu
    exact absurd (h.exists_interface_iff.1 ⟨_, hu⟩) hinterface
  · rename_i hu
    exact absurd ((h.type?_kind_iff .union nofun).1 ⟨_, hu, rfl⟩) hunion
  · rfl

/-! ## All names are those of objects -/

/-- Checks have seen to it that possible types are objects. -/
theorem defines_of_possible (hds : ds.Sound) {name n : String} (hn : n ∈ s.possibleNames name) :
    ds.Defines .object n := by
  by_cases hobject : ds.Defines .object name
  · rw [h.possibleNames_object hobject, List.mem_singleton] at hn
    exact hn ▸ hobject
  by_cases hinterface : ds.Defines .interface name
  · rw [h.possibleNames_interface hinterface, List.mem_map] at hn
    obtain ⟨d, hd, rfl⟩ := hn
    rw [List.mem_filter, decide_eq_true_eq] at hd
    exact ⟨d, hd.1, rfl, hd.2.1⟩
  by_cases hunion : ds.Defines .union name
  · obtain ⟨d, hd, rfl, hkind⟩ := hunion
    have hmembers := h.possibleNames_union hd hkind
    refine (hds.closes d hd).members n ?_
    rw [hmembers] at hn
    cases hbody : d.body with
    | union ms =>
        simpa [SchemaDocument.bodyOf, TypeBody.extendedBy, TypeBody.members, hbody,
          List.flatMap_map] using hn
    | _ => rw [hbody] at hkind; cases hkind
  · rw [h.possibleNames_other hobject hinterface hunion] at hn
    exact absurd hn List.not_mem_nil

/-- The enumeration looks every name up. -/
theorem possibleTypes_eq (name : String) :
    s.possibleTypes name = (s.possibleNames name).filterMap s.objectType? := by
  unfold possibleTypes possibleNames
  cases hu : s.type? name with
  | none => rfl
  | some u =>
      cases u with
      | object t =>
          have hself : t.name = name := h.name_eq hu
          have hobject : s.objectType? t.name = some t := by
            rw [objectType?, hself, hu]
            rfl
          dsimp only
          rw [List.filterMap_cons, hobject]
          rfl
      | _ => rfl

/-- It finds an object under each of them. -/
theorem possibleTypes_map_some (hds : ds.Sound) (name : String) :
    (s.possibleTypes name).map some = (s.possibleNames name).map s.objectType? := by
  rw [h.possibleTypes_eq, List.map_filterMap]
  have hfound : ∀ n ∈ s.possibleNames name,
      (s.objectType? n).map some = some (s.objectType? n) := by
    intro n hn
    obtain ⟨o, ho⟩ := h.exists_objectType? (h.defines_of_possible hds hn)
    rw [ho]
    rfl
  rw [List.filterMap_congr hfound]
  exact congrFun List.filterMap_eq_map' _

theorem possibleTypes_map_name (hds : ds.Sound) (name : String) :
    (s.possibleTypes name).map (·.name) = s.possibleNames name := by
  apply List.map_injective_iff.2 fun _ _ => Option.some.inj
  calc ((s.possibleTypes name).map (·.name)).map some
      = ((s.possibleTypes name).map some).map (Option.map (·.name)) := by
        rw [List.map_map, List.map_map]
        rfl
    _ = ((s.possibleNames name).map s.objectType?).map (Option.map (·.name)) := by
        rw [h.possibleTypes_map_some hds]
    _ = (s.possibleNames name).map some := by
        rw [List.map_map]
        refine List.map_congr_left fun n hn => ?_
        obtain ⟨o, ho⟩ := h.exists_objectType? (h.defines_of_possible hds hn)
        rw [Function.comp_apply, ho, Option.map_some, h.wellNamed.objectType_name ho]

end MadeFrom

/-! ## The test and the enumeration -/

/-- The enumeration of possible types is what a document declares, and the test agrees with
it. -/
structure EnumeratesPossible (s : Schema) (ds : SchemaDocument) : Prop where
  /-- The test holds of the names of the listed types. -/
  test : ∀ name object, s.isPossibleType name object = true ↔
    ∃ t ∈ s.possibleTypes name, t.name = object
  /-- No type is listed twice, not even under two names. -/
  apart : ∀ name, ((s.possibleTypes name).map (·.name)).Nodup
  /-- An object is listed itself. -/
  object : ∀ {name}, ds.Defines .object name →
    ∃ t, s.type? name = some (.object t) ∧ t.name = name ∧ s.possibleTypes name = [t]
  /-- For an interface, the objects that are declared to implement it, in the order of their
  definitions. -/
  interface : ∀ {name}, ds.Defines .interface name →
    (s.possibleTypes name).map some
      = (ds.definedTypes.filter (ds.Implements · name)).map fun d => s.objectType? d.name
  /-- For a union, the members of the definition, and then those of the extensions. -/
  union : ∀ {d}, d ∈ ds.definedTypes → d.body.kind = .union →
    (s.possibleTypes d.name).map some
      = (d.body.members ++ (ds.extensionsOf d.name).flatMap (·.body.members)).map s.objectType?
  /-- Nothing else has possible types. -/
  other : ∀ {name}, ¬ ds.Defines .object name → ¬ ds.Defines .interface name →
    ¬ ds.Defines .union name → s.possibleTypes name = []

/-- In every schema that is built from sources, the test for possible types and the enumeration
of them agree, and list what the sources declare. -/
theorem enumeratesPossible_of_ofSources {ss : List SchemaSource} (h : ofSources ss = .ok s) :
    s.EnumeratesPossible (SchemaSource.all ss) := by
  obtain ⟨hds, hmade⟩ := madeFrom_of_ofSources h
  exact {
    test := by
      intro name object
      rw [isPossibleType_iff, ← hmade.possibleTypes_map_name hds, List.mem_map]
    apart := hmade.wellNamed.possibleTypes_nodup
    object := by
      intro name hname
      obtain ⟨o, ho⟩ := hmade.exists_object_iff.2 hname
      refine ⟨o, ho, hmade.name_eq ho, ?_⟩
      rw [possibleTypes, ho]
    interface := by
      intro name hname
      rw [hmade.possibleTypes_map_some hds, hmade.possibleNames_interface hname, List.map_map]
      rfl
    union := by
      intro d hd hkind
      rw [hmade.possibleTypes_map_some hds, hmade.possibleNames_union hd hkind]
    other := by
      intro name hobject hinterface hunion
      rw [hmade.possibleTypes_eq, hmade.possibleNames_other hobject hinterface hunion]
      rfl }

/-- A dog and a cat have names, and are pets: the cat by its extension, and by that of the
union. -/
theorem enumeratesPossible_pets : ∃ s, ofSources Pets.sources = .ok s ∧
    s.EnumeratesPossible (SchemaSource.all Pets.sources) ∧
    (s.possibleTypes "Named").map (·.name) = ["Dog", "Cat"] ∧
    (s.possibleTypes "Pet").map (·.name) = ["Dog", "Cat"] := by
  have hpets : (ofSources Pets.sources).toOption.any
      (fun s => (s.possibleTypes "Named").map (·.name) = ["Dog", "Cat"] ∧
        (s.possibleTypes "Pet").map (·.name) = ["Dog", "Cat"]) = true := by
    decide +kernel
  obtain ⟨s, hs⟩ := Pets.exists_schema
  rw [hs] at hpets
  exact ⟨s, hs, enumeratesPossible_of_ofSources hs, by simpa [Except.toOption] using hpets⟩

end Schema

end QueryPlan
