import QueryPlan.Proofs.Schema.Described

/-!
# The table of implementations

A schema keeps for every interface the names of the objects that implement it. The table is
filled by one pass over the types: what stands under an interface are the objects that name it,
in the order of their definitions, and the keys are the interfaces.
-/

set_option autoImplicit false

namespace QueryPlan

open QueryPlan.Syntax

/-- The type is an object that names the interface. -/
def GraphQLType.Implements (t : GraphQLType) (interface : String) : Prop :=
  t.kind = .object ∧ interface ∈ t.interfaces

instance (t : GraphQLType) (interface : String) : Decidable (t.Implements interface) :=
  inferInstanceAs (Decidable (t.kind = .object ∧ interface ∈ t.interfaces))

/-- The type is the interface of that name. -/
def GraphQLType.IsInterface (t : GraphQLType) (name : String) : Prop :=
  t.kind = .interface ∧ t.name = name

/-- An object type that defines itself an implementation of an interface, by its definition or
by an extension. -/
def Syntax.SchemaDocument.Implements (ds : SchemaDocument) (d : TypeDeclaration)
    (interface : String) : Prop :=
  d.body.kind = .object ∧
    interface ∈ d.body.interfaces ++ (ds.extensionsOf d.name).flatMap (·.body.interfaces)

instance (ds : SchemaDocument) (d : TypeDeclaration) (interface : String) :
    Decidable (ds.Implements d interface) :=
  inferInstanceAs (Decidable (d.body.kind = .object ∧
    interface ∈ d.body.interfaces ++ (ds.extensionsOf d.name).flatMap (·.body.interfaces)))

namespace SchemaBuilder

/-! ## One pass over the types -/

/-- The implementations of an interface, none where it has not been noted. -/
abbrev noted (m : OrderedMap String (List String)) (interface : String) : List String :=
  (m.get? interface).getD []

/-- An object is noted last under each interface that it names. -/
theorem noted_noteInterfaces {interfaces : List String} {name : String}
    (hi : interfaces.Nodup) (m : OrderedMap String (List String)) (i : String) :
    noted (interfaces.foldl (fun m i => m.insert i ((m.get? i).getD [] ++ [name])) m) i
      = noted m i ++ if i ∈ interfaces then [name] else [] := by
  induction interfaces generalizing m with
  | nil => simp
  | cons j js ih =>
      rw [List.nodup_cons] at hi
      rw [List.foldl_cons, ih hi.2]
      by_cases hij : i = j
      · subst hij
        rw [noted, OrderedMap.get?_insert_self, if_neg hi.1, if_pos List.mem_cons_self]
        simp
      · rw [noted, OrderedMap.get?_insert_of_ne _ _ hij]
        simp [hij]

/-- A type is noted under the interfaces that it implements. -/
theorem noted_noteImplementations {t : GraphQLType} (ht : t.interfaces.Nodup)
    (m : OrderedMap String (List String)) (i : String) :
    noted (noteImplementations m t) i
      = noted m i ++ if t.Implements i then [t.name] else [] := by
  have hnone : t.kind ≠ .object → ¬ t.Implements i := fun hkind h => hkind h.1
  cases t with
  | object t =>
      have himplements : (GraphQLType.object t).Implements i ↔ i ∈ t.interfaces :=
        and_iff_right rfl
      simp only [himplements]
      exact noted_noteInterfaces ht m i
  | interface t =>
      rw [if_neg (hnone nofun), List.append_nil]
      simp only [noteImplementations]
      split
      · rfl
      · rename_i hnew
        -- an interface that is noted has no implementations yet
        by_cases hi : i = t.name
        · subst hi
          have hget : m.get? t.name = none :=
            OrderedMap.get?_eq_none_iff.2 fun hmem => hnew (OrderedMap.contains_iff.2 hmem)
          rw [noted, noted, OrderedMap.get?_insert_self, hget]
          rfl
        · rw [noted, noted, OrderedMap.get?_insert_of_ne _ _ hi]
  | builtin s => rw [if_neg (hnone nofun), List.append_nil]; rfl
  | enum t => rw [if_neg (hnone nofun), List.append_nil]; rfl
  | inputObject t => rw [if_neg (hnone nofun), List.append_nil]; rfl
  | scalar t => rw [if_neg (hnone nofun), List.append_nil]; rfl
  | union t => rw [if_neg (hnone nofun), List.append_nil]; rfl

/-- What the pass has noted under an interface are its implementations, in order. -/
theorem noted_foldl {ts : List GraphQLType} (hts : ∀ t ∈ ts, t.interfaces.Nodup)
    (m : OrderedMap String (List String)) (i : String) :
    noted (ts.foldl noteImplementations m) i
      = noted m i ++ (ts.filter (·.Implements i)).map (·.name) := by
  induction ts generalizing m with
  | nil => simp
  | cons t ts ih =>
      rw [List.forall_mem_cons] at hts
      rw [List.foldl_cons, ih hts.2, noted_noteImplementations hts.1, List.append_assoc]
      by_cases ht : t.Implements i
      · simp [ht]
      · simp [ht]

theorem mem_keys_noteInterfaces {interfaces : List String} {name : String}
    {m : OrderedMap String (List String)} {i : String} :
    i ∈ (interfaces.foldl (fun m i => m.insert i ((m.get? i).getD [] ++ [name])) m).keys ↔
      i ∈ m.keys ∨ i ∈ interfaces := by
  induction interfaces generalizing m with
  | nil => simp
  | cons j js ih =>
      rw [List.foldl_cons, ih, OrderedMap.mem_keys_insert, List.mem_cons, or_assoc, or_left_comm]

/-- The keys that a type adds are itself, if it is an interface, and what it implements. -/
theorem mem_keys_noteImplementations {t : GraphQLType} {m : OrderedMap String (List String)}
    {i : String} :
    i ∈ (noteImplementations m t).keys ↔ i ∈ m.keys ∨ t.IsInterface i ∨ t.Implements i := by
  cases t with
  | object t =>
      simp only [noteImplementations, mem_keys_noteInterfaces]
      simp [GraphQLType.IsInterface, GraphQLType.Implements, GraphQLType.kind,
        GraphQLType.interfaces]
  | interface t =>
      have hkeys : i ∈ (noteImplementations m (.interface t)).keys ↔ i ∈ m.keys ∨ t.name = i := by
        simp only [noteImplementations]
        split
        · rename_i hold
          rw [OrderedMap.contains_iff] at hold
          exact ⟨Or.inl, fun h => h.elim id fun h => h ▸ hold⟩
        · rw [OrderedMap.mem_keys_insert, or_comm, eq_comm]
      rw [hkeys]
      simp [GraphQLType.IsInterface, GraphQLType.Implements, GraphQLType.kind, GraphQLType.name]
  | _ => simp [noteImplementations, GraphQLType.IsInterface, GraphQLType.Implements,
      GraphQLType.kind]

theorem mem_keys_foldl {ts : List GraphQLType} {m : OrderedMap String (List String)}
    {i : String} :
    i ∈ (ts.foldl noteImplementations m).keys ↔
      i ∈ m.keys ∨ ∃ t ∈ ts, t.IsInterface i ∨ t.Implements i := by
  induction ts generalizing m with
  | nil => simp
  | cons t ts ih =>
      rw [List.foldl_cons, ih, mem_keys_noteImplementations, or_assoc, List.exists_mem_cons_iff]

end SchemaBuilder

/-! ## The table of a schema -/

/-- An object names the interfaces of its definition and those of its extensions. -/
theorem Syntax.SchemaDocument.implements_iff {ds : SchemaDocument} {d : TypeDeclaration}
    {interface : String} :
    ds.Implements d interface ↔
      (ds.bodyOf d).kind = .object ∧ interface ∈ (ds.bodyOf d).interfaces := by
  unfold SchemaDocument.Implements SchemaDocument.bodyOf
  cases d.body with
  | object is fs => simp [TypeBody.extendedBy, TypeBody.kind, TypeBody.interfaces]
  | _ => simp [TypeBody.extendedBy, TypeBody.kind]

namespace Schema.MadeFrom

open SchemaBuilder

variable {s : Schema} {ds : SchemaDocument}

/-- A defined type implements in the schema what it is declared to implement. -/
theorem implements_iff {d : TypeDeclaration} {t : GraphQLType} {i : String}
    (ht : t.Declared d.name d.description (ds.bodyOf d)) :
    (withTypename t).Implements i ↔ ds.Implements d i := by
  rw [SchemaDocument.implements_iff, GraphQLType.Implements, kind_withTypename,
    interfaces_withTypename, ht.kind, ht.interfaces]

/-- The implementations of an interface are the objects declared so, in the order of their
definitions. -/
theorem implementationsOf_eq (h : s.MadeFrom ds) (i : String) :
    s.implementationsOf i = (ds.definedTypes.filter (ds.Implements · i)).map (·.name) := by
  have hvalues : ∀ u ∈ s.types.values, u.interfaces.Nodup := fun u hu =>
    h.interfaces_nodup (h.mem_values.1 hu)
  have hentries : ∀ e ∈ s.types.entries, s.type? e.1 = some e.2 := fun e he =>
    OrderedMap.get?_of_mem_entries he
  have hbuiltin : BuiltinScalar.all.filter
      (fun b => (s.type? b.name).any (·.Implements i)) = [] := by
    rw [List.filter_eq_nil_iff]
    intro b _
    rw [h.type?_builtin]
    simp [GraphQLType.Implements, GraphQLType.kind]
  calc s.implementationsOf i
      = noted (s.types.values.foldl noteImplementations .empty) i := by
        rw [← h.implementations]
        rfl
    _ = (s.types.values.filter (·.Implements i)).map (·.name) := noted_foldl hvalues .empty i
    _ = s.types.keys.filter fun n => (s.type? n).any (·.Implements i) := by
        -- a type stands under its name
        rw [OrderedMap.values, OrderedMap.keys, List.filter_map, List.filter_map, List.map_map]
        have hfilter : s.types.entries.filter ((fun t => decide (t.Implements i)) ∘ Prod.snd)
            = s.types.entries.filter
              ((fun n => (s.type? n).any (·.Implements i)) ∘ Prod.fst) := by
          refine List.filter_congr fun e he => ?_
          rw [Function.comp_apply, Function.comp_apply, hentries e he]
          rfl
        rw [hfilter]
        refine List.map_congr_left fun e he => ?_
        exact h.name_eq (hentries e (List.mem_of_mem_filter he))
    _ = (ds.definedTypes.filter (ds.Implements · i)).map (·.name) := by
        rw [h.keys_types, SchemaDocument.typeNames, List.filter_append, List.filter_map,
          List.filter_map, Function.comp_def, Function.comp_def, hbuiltin, List.map_nil,
          List.nil_append]
        refine congrArg (List.map _) (List.filter_congr fun d hd => ?_)
        obtain ⟨t, ht, hdecl⟩ := h.type?_defined hd
        rw [ht, Option.any_some, decide_eq_decide]
        exact implements_iff hdecl

/-- The table lists the interfaces. -/
theorem mem_keys_implementations (h : s.MadeFrom ds) (hds : ds.Sound) {i : String} :
    i ∈ s.implementations.keys ↔ ds.Defines .interface i := by
  rw [h.implementations, mem_keys_foldl, ← h.type?_kind_iff .interface nofun]
  constructor
  · rintro (hmem | ⟨u, hu, ⟨hkind, rfl⟩ | himplements⟩)
    · exact absurd hmem List.not_mem_nil
    · exact ⟨u, h.mem_values.1 hu, hkind⟩
    · -- what is implemented is an interface
      rw [h.type?_kind_iff .interface nofun]
      rcases h.type?_cases (h.mem_values.1 hu) with ⟨b, -, rfl⟩ | ⟨d, hd, t, -, rfl, hdecl⟩
      · cases himplements.1
      · have hmem := himplements.2
        rw [interfaces_withTypename, hdecl.interfaces] at hmem
        exact (hds.closes d hd).interfaces i hmem
  · rintro ⟨u, hu, hkind⟩
    exact Or.inr ⟨u, h.mem_values.2 (h.name_eq hu ▸ hu), Or.inl ⟨hkind, h.name_eq hu⟩⟩

end Schema.MadeFrom

end QueryPlan
