import QueryPlan.Proofs.Schema.Building

/-!
# Which schemas are built

A schema is built from some sources exactly when their definitions are `Sound`, and it is
`MadeFrom` these definitions: its types are those of every schema and the defined ones, each
with what its extensions declare; its root types are the named ones, or objects with the usual
names. Nothing else about the builder is needed to compare what different sources lead to.
-/

set_option autoImplicit false

namespace QueryPlan

open QueryPlan.Syntax

namespace SchemaBuilder

/-! ## The field `__typename` -/

@[simp] theorem name_withTypename (t : GraphQLType) : (withTypename t).name = t.name := by
  cases t <;> rfl

@[simp] theorem kind_withTypename (t : GraphQLType) : (withTypename t).kind = t.kind := by
  cases t <;> rfl

@[simp] theorem interfaces_withTypename (t : GraphQLType) :
    (withTypename t).interfaces = t.interfaces := by
  cases t <;> rfl

@[simp] theorem members_withTypename (t : GraphQLType) :
    (withTypename t).members = t.members := by
  cases t <;> rfl

@[simp] theorem values_withTypename (t : GraphQLType) : (withTypename t).values = t.values := by
  cases t <;> rfl

/-- A field under another name is not touched. -/
theorem get?_fields_withTypename (t : GraphQLType) {name : String} (h : name ≠ "__typename") :
    (withTypename t).fields.get? name = t.fields.get? name := by
  cases t with
  | object t => exact OrderedMap.get?_insert_of_ne _ _ h
  | interface t => exact OrderedMap.get?_insert_of_ne _ _ h
  | _ => rfl

/-- Whatever is declared under its name, the field is that of every schema. -/
theorem get?_fields_typename {t : GraphQLType} {f : Field}
    (h : (withTypename t).fields.get? "__typename" = some f) : f = .typename := by
  cases t with
  | object t => exact Option.some.inj (h.symm.trans (OrderedMap.get?_insert_self _ _ _))
  | interface t => exact Option.some.inj (h.symm.trans (OrderedMap.get?_insert_self _ _ _))
  | _ => cases h

/-! ## References -/

/-- A type of that kind stands under the name. -/
def HasKind (types : OrderedMap String GraphQLType) (kind : TypeKind) (name : String) : Prop :=
  (types.get? name).map GraphQLType.kind = some kind

variable {types : OrderedMap String GraphQLType} {ds : SchemaDocument}
  {body : TypeDeclaration → TypeBody} {b : SchemaBuilder}

theorem checkFields_eq_ok_iff {owner : String} {fields : OrderedMap String Field} :
    checkFields types owner fields = .ok () ↔
      ∀ f ∈ fields.values, f.type.innermost ∈ types.keys := by
  rw [checkFields, forM_eq_ok_iff]
  refine forall₂_congr fun f _ => ?_
  rw [← OrderedMap.contains_iff]
  cases types.contains f.type.innermost <;> simp

theorem checkInterfaces_eq_ok_iff {owner : String} {location : SchemaLocation}
    {interfaces : List String} :
    checkInterfaces types owner location interfaces = .ok () ↔
      ∀ i ∈ interfaces, HasKind types .interface i := by
  rw [checkInterfaces, forM_eq_ok_iff]
  refine forall₂_congr fun i _ => ?_
  rw [HasKind]
  rcases types.get? i with _ | t
  · simp
  · cases t <;> simp [GraphQLType.kind]

theorem checkMembers_eq_ok_iff {u : UnionType} :
    checkMembers types u = .ok () ↔ ∀ m ∈ u.members.keys, HasKind types .object m := by
  rw [checkMembers, forM_eq_ok_iff, OrderedMap.keys, List.forall_mem_map]
  refine forall₂_congr fun e _ => ?_
  obtain ⟨m, location⟩ := e
  dsimp only [HasKind]
  rcases types.get? m with _ | t
  · simp
  · cases t <;> simp [GraphQLType.kind]

/-- A type passes the check when all that it refers to is there. -/
theorem checkType_eq_ok_iff {t : GraphQLType} :
    checkType types t = .ok () ↔
      (∀ f ∈ t.fields.values, f.type.innermost ∈ types.keys) ∧
        (∀ i ∈ t.interfaces, HasKind types .interface i) ∧
        ∀ m ∈ t.members.keys, HasKind types .object m := by
  have hboth : ∀ {owner location fields interfaces},
      (checkFields types owner fields >>= fun _ =>
          checkInterfaces types owner location interfaces) = .ok () ↔
        (∀ f ∈ fields.values, f.type.innermost ∈ types.keys) ∧
          ∀ i ∈ interfaces, HasKind types .interface i := by
    intro owner location fields interfaces
    rw [ok_bind_iff, ← checkFields_eq_ok_iff, ← checkInterfaces_eq_ok_iff]
    exact ⟨fun ⟨_, h, h'⟩ => ⟨h, h'⟩, fun ⟨h, h'⟩ => ⟨(), h, h'⟩⟩
  cases t with
  | object t =>
      simpa [checkType, GraphQLType.fields, GraphQLType.interfaces, GraphQLType.members]
        using hboth
  | interface t =>
      simpa [checkType, GraphQLType.fields, GraphQLType.interfaces, GraphQLType.members]
        using hboth
  | union t =>
      simpa [checkType, GraphQLType.fields, GraphQLType.interfaces, GraphQLType.members]
        using checkMembers_eq_ok_iff
  | _ => simp [checkType, GraphQLType.fields, GraphQLType.interfaces, GraphQLType.members]

/-- A field of a type is one that was declared. -/
theorem get?_fields_iff {t : GraphQLType} {name : String} {description : Option String}
    {b : TypeBody} (h : t.Declared name description b) {fieldName : String} {f : Field} :
    (t.fields.get? fieldName).map Field.placeless = some f ↔
      ∃ d ∈ b.fields, d.name = fieldName ∧ d.element = f := by
  rw [← OrderedMap.get?_mapValues fun _ f => Field.placeless f, OrderedMap.get?_eq_some_iff,
    h.fields, List.mem_map]
  simp only [Prod.mk.injEq]

/-- What does not depend on places, and is true of `__typename`, is true of the fields with
`__typename` if it is of the other declared ones. -/
theorem forall_fields_iff {t : GraphQLType} {name : String} {description : Option String}
    {b : TypeBody} (h : t.Declared name description b) {P : Field → Prop}
    (hplaceless : ∀ f : Field, P f.placeless ↔ P f) (htypename : P .typename) :
    (∀ f ∈ (withTypename t).fields.values, P f) ↔
      ∀ d ∈ b.fields, d.name ≠ "__typename" → P d.element := by
  constructor
  · intro hall d hd hne
    obtain ⟨f, hf, hsame⟩ :=
      Option.map_eq_some_iff.1 ((get?_fields_iff h).2 ⟨d, hd, rfl, rfl⟩)
    rw [← hsame, hplaceless]
    exact hall f (OrderedMap.mem_values_of_get? (get?_fields_withTypename t hne ▸ hf))
  · intro hall f hf
    obtain ⟨fieldName, hf⟩ := OrderedMap.mem_values_iff.1 hf
    by_cases hne : fieldName = "__typename"
    · subst hne
      obtain rfl := get?_fields_typename hf
      exact htypename
    · rw [get?_fields_withTypename t hne] at hf
      obtain ⟨d, hd, rfl, helement⟩ := (get?_fields_iff h).1 (congrArg (Option.map _) hf)
      rw [← hplaceless, ← helement]
      exact hall d hd hne

/-- The fields with `__typename` have types that are there if the declared ones have. -/
theorem forall_fields_withTypename {t : GraphQLType} {name : String}
    {description : Option String} {b : TypeBody} (h : t.Declared name description b)
    (hstring : "String" ∈ types.keys) :
    (∀ f ∈ (withTypename t).fields.values, f.type.innermost ∈ types.keys) ↔
      ∀ d ∈ b.fields, d.name ≠ "__typename" →
        d.element.type.innermost ∈ types.keys :=
  forall_fields_iff h (P := fun f => f.type.innermost ∈ types.keys) (fun _ => .rfl) hstring

/-! ## The finished types -/

/-- The types as a schema has them. -/
def finished (types : OrderedMap String GraphQLType) : OrderedMap String GraphQLType :=
  types.mapValues fun _ t => withTypename t

theorem get?_finished (types : OrderedMap String GraphQLType) (name : String) :
    (finished types).get? name = (types.get? name).map withTypename :=
  OrderedMap.get?_mapValues _ _ _

/-- What stands under a name is of the kind that a definition says. -/
theorem TypesOf.hasKind_iff (h : TypesOf ds ds.bodyOf types) (kind : TypeKind)
    (hkind : ∀ s, kind ≠ .builtin s) {name : String} :
    HasKind (finished types) kind name ↔ ds.Defines kind name := by
  rw [HasKind, get?_finished, Option.map_map, Option.map_eq_some_iff]
  constructor
  · rintro ⟨t, ht, hk⟩
    rw [Function.comp_apply, kind_withTypename] at hk
    rcases h.cases ht with ⟨s, -, rfl⟩ | ⟨d, hd, hname, hdecl⟩
    · exact absurd hk.symm (hkind s)
    · rw [hdecl.kind, SchemaDocument.bodyOf, TypeBody.kind_extendedBy] at hk
      exact ⟨d, hd, hname, hk⟩
  · rintro ⟨d, hd, rfl, rfl⟩
    obtain ⟨t, ht, hdecl⟩ := h.defined hd
    refine ⟨t, ht, ?_⟩
    rw [Function.comp_apply, kind_withTypename, hdecl.kind, SchemaDocument.bodyOf,
      TypeBody.kind_extendedBy]

/-- All types pass the check when what the definitions refer to is defined. -/
theorem TypesOf.check_iff (h : TypesOf ds ds.bodyOf types) :
    (finished types).values.forM (checkType (finished types)) = .ok () ↔
      ∀ d ∈ ds.definedTypes, ds.Closes (ds.bodyOf d) := by
  have hkeys : (finished types).keys = ds.typeNames := (OrderedMap.keys_mapValues _ _).trans h.keys
  have hstring : "String" ∈ (finished types).keys := by
    rw [hkeys]
    exact List.mem_append_left _ (by decide)
  have hone : ∀ {d t}, t.Declared d.name d.description (ds.bodyOf d) →
      (checkType (finished types) (withTypename t) = .ok () ↔ ds.Closes (ds.bodyOf d)) := by
    intro d t hdecl
    rw [checkType_eq_ok_iff, forall_fields_withTypename hdecl hstring, interfaces_withTypename,
      hdecl.interfaces, members_withTypename, hdecl.members, hkeys]
    simp only [h.hasKind_iff .interface nofun, h.hasKind_iff .object nofun]
    exact ⟨fun ⟨hf, hi, hm⟩ => ⟨hf, hi, hm⟩, fun hc => ⟨hc.fields, hc.interfaces, hc.members⟩⟩
  rw [forM_eq_ok_iff]
  constructor
  · intro hall d hd
    obtain ⟨t, ht, hdecl⟩ := h.defined hd
    refine (hone hdecl).1 (hall _ (OrderedMap.mem_values_of_get? (k := d.name) ?_))
    rw [get?_finished, ht]
    rfl
  · intro hall u hu
    obtain ⟨name, hu⟩ := OrderedMap.mem_values_iff.1 hu
    rw [get?_finished, Option.map_eq_some_iff] at hu
    obtain ⟨t, ht, rfl⟩ := hu
    rcases h.cases ht with ⟨s, -, rfl⟩ | ⟨d, hd, -, hdecl⟩
    · rfl
    · exact (hone hdecl).2 (hall d hd)

/-! ## Root types -/

/-- The root type for a kind of operation is the one that the document gives, if it is an
object. -/
theorem resolveRoot_eq_ok_iff (h : TypesOf ds ds.bodyOf types) (hb : TakesUp empty ds b)
    (kind : OperationKind) {r : Option String} :
    resolveRoot (finished types) kind (b.root? kind) = .ok r ↔
      (∀ name ∈ ds.rootNames kind, ds.Defines .object name) ∧ r = ds.rootFor kind := by
  have hnames : ds.rootNames kind = (b.root? kind).toList.map (·.type) :=
    (hb.rootNames kind).symm
  have hobject : ∀ name, ds.Defines .object name ↔ HasKind (finished types) .object name :=
    fun name => (h.hasKind_iff .object nofun).symm
  unfold resolveRoot
  rw [SchemaDocument.rootFor, hnames]
  rcases b.root? kind with _ | root
  · -- no block names a type of its own
    have hnamed : ∀ {t}, (finished types).get? kind.defaultRootName = some t →
        t.name = kind.defaultRootName := by
      intro t ht
      rw [get?_finished, Option.map_eq_some_iff] at ht
      obtain ⟨u, hu, rfl⟩ := ht
      rw [name_withTypename]
      rcases h.cases hu with ⟨s, hs, rfl⟩ | ⟨d, -, hname, hdecl⟩
      · exact hs.symm
      · exact hdecl.name.trans hname
    simp only [hobject, HasKind]
    cases hget : (finished types).get? kind.defaultRootName with
    | none => simp [eq_comm]
    | some t =>
        have hname := hnamed hget
        cases t with
        | object t =>
            simp [GraphQLType.kind, ← hname, GraphQLType.name, eq_comm]
        | _ => simp [GraphQLType.kind, eq_comm]
  · simp only [Option.toList_some, List.map_cons, List.map_nil, List.mem_singleton, forall_eq,
      hobject, HasKind]
    rcases (finished types).get? root.type with _ | t
    · simp
    · cases t <;> simp [GraphQLType.kind, eq_comm]

/-! ## Building -/

/-- What has to succeed for a schema to be built, and what the schema is then. -/
theorem build_eq_ok_iff {s : Schema} :
    b.build = .ok s ↔
      ∃ types, b.extensions.foldlM applyExtension b.types = .ok types ∧
        (finished types).values.forM (checkType (finished types)) = .ok () ∧
        (∀ kind, resolveRoot (finished types) kind (b.root? kind) = .ok (s.rootName? kind)) ∧
        s.types = finished types ∧
        s.implementations = (finished types).values.foldl noteImplementations .empty := by
  unfold build
  constructor
  · intro h
    obtain ⟨types, hext, h⟩ := ok_bind_iff.1 h
    obtain ⟨_, hcheck, h⟩ := ok_bind_iff.1 h
    obtain ⟨query, hquery, h⟩ := ok_bind_iff.1 h
    cases query with
    | none => cases h
    | some query =>
        obtain ⟨mutation, hmutation, h⟩ := ok_bind_iff.1 h
        obtain ⟨subscription, hsubscription, h⟩ := ok_bind_iff.1 h
        cases h
        refine ⟨types, hext, hcheck, fun kind => ?_, rfl, rfl⟩
        cases kind with
        | query => exact hquery
        | mutation => exact hmutation
        | subscription => exact hsubscription
  · rintro ⟨types, hext, hcheck, hroots, htypes, himplementations⟩
    refine ok_bind_iff.2 ⟨types, hext, ok_bind_iff.2 ⟨(), hcheck, ok_bind_iff.2
      ⟨_, hroots .query, ok_bind_iff.2 ⟨_, hroots .mutation, ok_bind_iff.2
      ⟨_, hroots .subscription, ?_⟩⟩⟩⟩⟩
    obtain ⟨types', query, mutation, subscription, implementations⟩ := s
    cases htypes
    cases himplementations
    rfl

end SchemaBuilder

namespace Schema

/-- The schema is what a document declares. -/
structure MadeFrom (s : Schema) (ds : SchemaDocument) : Prop where
  /-- The types with all their extensions, and the field `__typename` with them. -/
  types : ∃ types, SchemaBuilder.TypesOf ds ds.bodyOf types ∧
    s.types = SchemaBuilder.finished types
  roots : ∀ kind, s.rootName? kind = ds.rootFor kind
  implementations :
    s.implementations = s.types.values.foldl SchemaBuilder.noteImplementations .empty

/-- The schema of some sources. -/
def ofSources (ss : List SchemaSource) : Except SchemaError Schema := do
  (← SchemaBuilder.ofSources ss).build

end Schema

namespace SchemaBuilder

variable {ds : SchemaDocument} {b : SchemaBuilder}

/-- What is built from a document is the schema of it, and the document is sound. -/
theorem sound_of_build {s : Schema} (hb : TakesUp empty ds b) (h : b.build = .ok s) :
    ds.Sound ∧ s.MadeFrom ds := by
  obtain ⟨types, hext, hcheck, hroots, htypes, himplementations⟩ := build_eq_ok_iff.1 h
  have hextended := extended_of_applyAll hext
  have hof := hextended.typesOf hb
  have hroot := fun kind => (resolveRoot_eq_ok_iff hof hb kind).1 (hroots kind)
  refine ⟨?_, ⟨types, hof, htypes⟩, fun kind => (hroot kind).2, htypes ▸ himplementations⟩
  exact {
    names := hof.names_nodup
    extensions := fun e he => hextended.defines hb he
    apart := by
      intro d hd
      obtain ⟨t, -, hdecl⟩ := hof.defined hd
      exact hdecl.apart
    closes := hof.check_iff.1 hcheck
    roots := by
      intro kind
      rw [← hb.rootNames, rootNames, List.length_map]
      cases b.root? kind <;> simp
    rootObjects := fun kind => (hroot kind).1
    query := by
      rw [← (hroot .query).2]
      rfl }

/-- A schema is built from every sound document. -/
theorem exists_build (hb : TakesUp empty ds b) (hds : ds.Sound) : ∃ s, b.build = .ok s := by
  obtain ⟨types, hext⟩ := exists_extended hb hds
  have hof := (extended_of_applyAll hext).typesOf hb
  have hroots := fun kind =>
    (resolveRoot_eq_ok_iff hof hb kind).2 ⟨hds.rootObjects kind, rfl⟩
  obtain ⟨query, hquery⟩ := Option.isSome_iff_exists.1 hds.query
  refine ⟨⟨finished types, query, ds.rootFor .mutation, ds.rootFor .subscription, _⟩,
    build_eq_ok_iff.2 ⟨types, hext, hof.check_iff.2 hds.closes, fun kind => ?_, rfl, rfl⟩⟩
  rw [hroots kind]
  cases kind with
  | query => rw [hquery]; rfl
  | mutation => rfl
  | subscription => rfl

end SchemaBuilder

namespace Schema

variable {ss : List SchemaSource} {s : Schema}

/-- The schema is what a builder has built. -/
def Built (s : Schema) : Prop := ∃ b : SchemaBuilder, b.Loaded ∧ b.build = .ok s

theorem ofSources_eq_ok_iff :
    ofSources ss = .ok s ↔ ∃ b, SchemaBuilder.ofSources ss = .ok b ∧ b.build = .ok s :=
  ok_bind_iff

/-- The schemas that can be built are those of some sources. -/
theorem built_iff : s.Built ↔ ∃ ss, ofSources ss = .ok s := by
  simp only [ofSources_eq_ok_iff, Built, SchemaBuilder.loaded_iff]
  exact ⟨fun ⟨b, ⟨ss, hss⟩, h⟩ => ⟨ss, b, hss, h⟩, fun ⟨ss, b, hss, h⟩ => ⟨b, ⟨ss, hss⟩, h⟩⟩

/-- What is built from sources is the schema of their definitions. -/
theorem madeFrom_of_ofSources (h : ofSources ss = .ok s) :
    (SchemaSource.all ss).Sound ∧ s.MadeFrom (SchemaSource.all ss) := by
  obtain ⟨b, hss, hb⟩ := ofSources_eq_ok_iff.1 h
  exact SchemaBuilder.sound_of_build (SchemaBuilder.takesUp_addSources hss) hb

/-- Sources make a schema exactly when their definitions are sound. -/
theorem exists_ofSources_iff :
    (∃ s, ofSources ss = .ok s) ↔ (SchemaSource.all ss).Sound := by
  constructor
  · rintro ⟨s, h⟩
    exact (madeFrom_of_ofSources h).1
  · intro hds
    have hadmits : SchemaBuilder.Admits .empty (SchemaSource.all ss) := {
      names := hds.names
      apart := fun d hd => (hds.apart d hd).of_extendedBy
      roots := fun kind => by
        rw [SchemaBuilder.rootNames_empty]
        exact hds.roots kind }
    obtain ⟨b, hss⟩ := SchemaBuilder.exists_addSources hadmits
    obtain ⟨s, hs⟩ := SchemaBuilder.exists_build (SchemaBuilder.takesUp_addSources hss) hds
    exact ⟨s, ofSources_eq_ok_iff.2 ⟨b, hss, hs⟩⟩

/-! ## The types of a schema -/

namespace MadeFrom

open SchemaBuilder

variable {ds : SchemaDocument}

/-- A scalar of every schema, as a type of the schema. -/
theorem type?_builtin (h : s.MadeFrom ds) (b : BuiltinScalar) :
    s.type? b.name = some (.builtin b) := by
  obtain ⟨types, hof, htypes⟩ := h.types
  rw [type?, htypes, get?_finished, hof.builtin]
  rfl

/-- A defined type of the schema, with all that is declared of it. -/
theorem type?_defined (h : s.MadeFrom ds) {d : TypeDeclaration} (hd : d ∈ ds.definedTypes) :
    ∃ t, s.type? d.name = some (withTypename t) ∧
      t.Declared d.name d.description (ds.bodyOf d) := by
  obtain ⟨types, hof, htypes⟩ := h.types
  obtain ⟨t, ht, hdecl⟩ := hof.defined hd
  refine ⟨t, ?_, hdecl⟩
  rw [type?, htypes, get?_finished, ht]
  rfl

theorem keys_types (h : s.MadeFrom ds) : s.types.keys = ds.typeNames := by
  obtain ⟨types, hof, htypes⟩ := h.types
  rw [htypes, finished, OrderedMap.keys_mapValues, hof.keys]

/-- There are no other types. -/
theorem type?_cases (h : s.MadeFrom ds) {name : String} {u : GraphQLType}
    (hu : s.type? name = some u) :
    (∃ b : BuiltinScalar, name = b.name ∧ u = .builtin b) ∨
      ∃ d ∈ ds.definedTypes, ∃ t, d.name = name ∧ u = withTypename t ∧
        t.Declared d.name d.description (ds.bodyOf d) := by
  obtain ⟨types, hof, htypes⟩ := h.types
  rw [type?, htypes, get?_finished, Option.map_eq_some_iff] at hu
  obtain ⟨t, ht, rfl⟩ := hu
  rcases hof.cases ht with ⟨b, hname, rfl⟩ | ⟨d, hd, hname, hdecl⟩
  · exact Or.inl ⟨b, hname, rfl⟩
  · exact Or.inr ⟨d, hd, t, hname, rfl, hdecl⟩

/-- Which kinds of types are there is what the definitions say. -/
theorem type?_kind_iff (h : s.MadeFrom ds) (kind : TypeKind) (hkind : ∀ b, kind ≠ .builtin b)
    {name : String} :
    (∃ t, s.type? name = some t ∧ t.kind = kind) ↔ ds.Defines kind name := by
  obtain ⟨types, hof, htypes⟩ := h.types
  rw [← hof.hasKind_iff kind hkind, HasKind, ← htypes, Option.map_eq_some_iff]
  rfl

/-- The objects of the schema are the defined ones. -/
theorem exists_object_iff (h : s.MadeFrom ds) {name : String} :
    (∃ o, s.type? name = some (.object o)) ↔ ds.Defines .object name := by
  rw [← h.type?_kind_iff .object nofun]
  constructor
  · rintro ⟨o, ho⟩
    exact ⟨_, ho, rfl⟩
  · rintro ⟨u, hu, hkind⟩
    cases u <;> cases hkind
    exact ⟨_, hu⟩

theorem exists_interface_iff (h : s.MadeFrom ds) {name : String} :
    (∃ i, s.type? name = some (.interface i)) ↔ ds.Defines .interface name := by
  rw [← h.type?_kind_iff .interface nofun]
  constructor
  · rintro ⟨i, hi⟩
    exact ⟨_, hi, rfl⟩
  · rintro ⟨u, hu, hkind⟩
    cases u <;> cases hkind
    exact ⟨_, hu⟩

theorem name_eq (h : s.MadeFrom ds) {name : String} {u : GraphQLType}
    (hu : s.type? name = some u) : u.name = name := by
  rcases h.type?_cases hu with ⟨b, rfl, rfl⟩ | ⟨d, -, t, rfl, rfl, hdecl⟩
  · rfl
  · rw [name_withTypename, hdecl.name]

theorem interfaces_nodup (h : s.MadeFrom ds) {name : String} {u : GraphQLType}
    (hu : s.type? name = some u) : u.interfaces.Nodup := by
  rcases h.type?_cases hu with ⟨b, -, rfl⟩ | ⟨d, -, t, -, rfl, hdecl⟩
  · exact List.nodup_nil
  · rw [interfaces_withTypename]
    exact hdecl.interfaces_nodup

/-- Fields stand under their own names. -/
theorem field_name (h : s.MadeFrom ds) {name fieldName : String} {u : GraphQLType} {f : Field}
    (hu : s.type? name = some u) (hf : u.fields.get? fieldName = some f) : f.name = fieldName := by
  rcases h.type?_cases hu with ⟨b, -, rfl⟩ | ⟨d, -, t, -, rfl, hdecl⟩
  · cases hf
  · by_cases hne : fieldName = "__typename"
    · subst hne
      obtain rfl := get?_fields_typename hf
      rfl
    · rw [get?_fields_withTypename t hne] at hf
      obtain ⟨field, -, hname, helement⟩ := (get?_fields_iff hdecl).1 (congrArg (Option.map _) hf)
      rw [← hname, ← Field.name_placeless, ← helement]
      rfl

theorem mem_values (h : s.MadeFrom ds) {u : GraphQLType} :
    u ∈ s.types.values ↔ s.type? u.name = some u := by
  rw [OrderedMap.mem_values_iff]
  constructor
  · rintro ⟨name, hu⟩
    rw [h.name_eq hu]
    exact hu
  · exact fun hu => ⟨u.name, hu⟩

end MadeFrom

end Schema

/-! ## Sources to try it on -/

namespace Pets

def here : Position := ⟨1, 1⟩

/-- A field without arguments. -/
def field (name type : String) : FieldDefinition := ⟨name, .named type, [], none, here⟩

/-- Animals, some of which have names. -/
def animals : SchemaDocument :=
  [.type ⟨"Dog", none, .object ["Named"] [field "name" "String"], here⟩,
   .type ⟨"Cat", none, .object [] [field "name" "String"], here⟩,
   .type ⟨"Fish", none, .object [] [field "depth" "Int", field "__typename" "Nowhere"], here⟩]

/-- The rest, with extensions of what is defined before and after them. -/
def rest : SchemaDocument :=
  [.extension ⟨"Cat", none, .object ["Named"] [field "lives" "Int"], here⟩,
   .extension ⟨"Pet", none, .union ["Cat"], here⟩,
   .type ⟨"Named", none, .interface [] [field "name" "String"], here⟩,
   .type ⟨"Pet", none, .union ["Dog"], here⟩,
   .type ⟨"Query", none, .object [] [field "pet" "Pet"], here⟩]

def sources : List SchemaSource := [⟨none, animals⟩, ⟨some "rest.graphql", rest⟩]

/-- The same definitions in one source, the last one first. -/
def reversed : List SchemaSource := [⟨some "pets.graphql", (animals ++ rest).reverse⟩]

theorem exists_schema : ∃ s, Schema.ofSources sources = .ok s :=
  exists_ok_of_isOk (by decide +kernel)

end Pets

end QueryPlan
