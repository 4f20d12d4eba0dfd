import QueryPlan.Proofs.Schema.Sources

/-!
# What is built from sources

Building applies the extensions, checks the references and settles the root types. Extensions
of different types do not meet, so that each type goes through its own ones only. A schema is
built exactly from `Sound` documents, and `Describes` says which schema it is: this is all that
later statements have to know of the builder.
-/

set_option autoImplicit false

namespace QueryPlan

open QueryPlan.Syntax

namespace SchemaBuilder

/-! ## Extensions, type by type -/

/-- The extensions of one type. -/
def extensionsFor (name : String) (es : List (String × TypeDeclaration)) :
    List (String × TypeDeclaration) :=
  es.filter (·.2.name = name)

/-- What applying extensions has made of the types. -/
structure Extended (types : OrderedMap String GraphQLType) (es : List (String × TypeDeclaration))
    (types' : OrderedMap String GraphQLType) : Prop where
  keys : types'.keys = types.keys
  named : ∀ e ∈ es, e.2.name ∈ types.keys
  /-- A type goes through its own extensions. -/
  types : ∀ {name t}, types.get? name = some t →
    ∃ t', types'.get? name = some t' ∧ extendAll t (extensionsFor name es) = .ok t'

variable {types types' : OrderedMap String GraphQLType} {e : String × TypeDeclaration}
  {es : List (String × TypeDeclaration)}

theorem applyExtension_eq_ok_iff :
    applyExtension types e = .ok types' ↔
      ∃ t t', types.get? e.2.name = some t ∧ extend e.1 e.2 t = .ok t' ∧
        types' = types.insert e.2.name t' := by
  unfold applyExtension
  cases types.get? e.2.name with
  | none =>
      constructor
      · intro h
        cases h
      · rintro ⟨_, _, h, _⟩
        cases h
  | some t =>
      constructor
      · intro h
        obtain ⟨t', ht', h⟩ := ok_bind_iff.1 h
        cases h
        exact ⟨t, t', rfl, ht', rfl⟩
      · rintro ⟨_, t', h, ht', rfl⟩
        cases h
        exact ok_bind_iff.2 ⟨t', ht', rfl⟩

/-- An extended type keeps its place. -/
theorem keys_insert_of_get? {name : String} {t : GraphQLType} (t' : GraphQLType)
    (h : types.get? name = some t) :
    (types.insert name t').keys = types.keys := by
  rw [OrderedMap.keys_insert, if_pos (OrderedMap.mem_keys_iff.2 ⟨t, h⟩)]

theorem extended_of_applyAll (h : es.foldlM applyExtension types = .ok types') :
    Extended types es types' := by
  induction es generalizing types with
  | nil =>
      cases h
      exact ⟨rfl, fun e he => absurd he List.not_mem_nil, fun {_ t} ht => ⟨t, ht, rfl⟩⟩
  | cons e es ih =>
      rw [List.foldlM_cons, ok_bind_iff] at h
      obtain ⟨types₁, hone, hrest⟩ := h
      obtain ⟨t, t₁, hget, hext, rfl⟩ := applyExtension_eq_ok_iff.1 hone
      have hkeys := keys_insert_of_get? t₁ hget
      have hih := ih hrest
      refine ⟨hih.keys.trans hkeys, ?_, ?_⟩
      · rw [List.forall_mem_cons]
        exact ⟨OrderedMap.mem_keys_iff.2 ⟨t, hget⟩, fun e he => hkeys ▸ hih.named e he⟩
      · intro name u hu
        by_cases hname : e.2.name = name
        · subst hname
          obtain rfl : t = u := Option.some.inj (hget.symm.trans hu)
          obtain ⟨t', ht', hall⟩ := hih.types (OrderedMap.get?_insert_self _ _ _)
          refine ⟨t', ht', ?_⟩
          rw [extensionsFor, List.filter_cons_of_pos (by simp)]
          exact ok_bind_iff.2 ⟨t₁, hext, hall⟩
        · rw [extensionsFor, List.filter_cons_of_neg (by simpa using hname)]
          rw [← OrderedMap.get?_insert_of_ne types t₁ (Ne.symm hname)] at hu
          exact hih.types hu

/-- Extensions are applied where each type can go through its own ones. -/
theorem exists_applyAll (hnamed : ∀ e ∈ es, e.2.name ∈ types.keys)
    (h : ∀ {name t}, types.get? name = some t →
      ∃ t', extendAll t (extensionsFor name es) = .ok t') :
    ∃ types', es.foldlM applyExtension types = .ok types' := by
  induction es generalizing types with
  | nil => exact ⟨types, rfl⟩
  | cons e es ih =>
      rw [List.forall_mem_cons] at hnamed
      obtain ⟨t, hget⟩ := OrderedMap.mem_keys_iff.1 hnamed.1
      have hall := h hget
      rw [extensionsFor, List.filter_cons_of_pos (by simp)] at hall
      obtain ⟨t', hall⟩ := hall
      obtain ⟨t₁, hext, hall⟩ := ok_bind_iff.1 hall
      have hkeys := keys_insert_of_get? t₁ hget
      have hothers : ∀ {name u}, (types.insert e.2.name t₁).get? name = some u →
          ∃ u', extendAll u (extensionsFor name es) = .ok u' := by
        intro name u hu
        by_cases hname : name = e.2.name
        · subst hname
          rw [OrderedMap.get?_insert_self] at hu
          cases hu
          exact ⟨t', hall⟩
        · rw [OrderedMap.get?_insert_of_ne _ _ hname] at hu
          have hu := h hu
          rwa [extensionsFor, List.filter_cons_of_neg (by simpa using Ne.symm hname)] at hu
      obtain ⟨types', hrest⟩ := ih (fun e he => hkeys ▸ hnamed.2 e he) hothers
      exact ⟨types', ok_bind_iff.2 ⟨_, applyExtension_eq_ok_iff.2 ⟨t, t₁, hget, hext, rfl⟩, hrest⟩⟩

/-! ## The types of a document -/

/-- The types are the scalars that every schema has and those that a document defines, where
`body` tells what each of these declares. -/
structure TypesOf (ds : SchemaDocument) (body : TypeDeclaration → TypeBody)
    (types : OrderedMap String GraphQLType) : Prop where
  keys : types.keys = ds.typeNames
  builtin : ∀ s : BuiltinScalar, types.get? s.name = some (.builtin s)
  defined : ∀ {d}, d ∈ ds.definedTypes →
    ∃ t, types.get? d.name = some t ∧ t.Declared d.name d.description (body d)

variable {ds : SchemaDocument} {body : TypeDeclaration → TypeBody} {b b' : SchemaBuilder}

/-- Every type is one of every schema or has a definition. -/
theorem TypesOf.cases (h : TypesOf ds body types) {name : String} {t : GraphQLType}
    (ht : types.get? name = some t) :
    (∃ s : BuiltinScalar, name = s.name ∧ t = .builtin s) ∨
      ∃ d ∈ ds.definedTypes, d.name = name ∧ t.Declared d.name d.description (body d) := by
  have hmem : name ∈ ds.typeNames := h.keys ▸ OrderedMap.mem_keys_iff.2 ⟨t, ht⟩
  rcases List.mem_append.1 hmem with hmem | hmem
  · obtain ⟨s, -, rfl⟩ := List.mem_map.1 hmem
    exact Or.inl ⟨s, rfl, Option.some.inj (ht.symm.trans (h.builtin s))⟩
  · obtain ⟨d, hd, rfl⟩ := List.mem_map.1 hmem
    obtain ⟨u, hu, hdecl⟩ := h.defined hd
    obtain rfl : t = u := Option.some.inj (ht.symm.trans hu)
    exact Or.inr ⟨d, hd, rfl, hdecl⟩

theorem TypesOf.names_nodup (h : TypesOf ds body types) : ds.typeNames.Nodup :=
  h.keys ▸ types.keys_nodup

/-- A builder that has taken up a document has the types of its definitions. -/
theorem TakesUp.typesOf (h : TakesUp empty ds b) : TypesOf ds (·.body) b.types where
  keys := h.keys
  builtin s := by
    obtain ⟨es, hes, -⟩ := h.types
    rw [OrderedMap.get?_eq_some_iff, hes]
    refine List.mem_append_left _ ?_
    cases s <;> decide
  defined {d} hd := by
    obtain ⟨es, hes, hall⟩ := h.types
    obtain ⟨e, he, hname, hdecl⟩ := exists_of_mem_left hall hd
    refine ⟨e.2, ?_, hdecl⟩
    rw [OrderedMap.get?_eq_some_iff, hes, ← hname]
    exact List.mem_append_right _ he

/-- A builder that has taken up a document keeps its extensions, each with its file. -/
theorem TakesUp.extensions_map (h : TakesUp empty ds b) :
    b.extensions.map Prod.snd = ds.extensions := by
  obtain ⟨es, hes, hall⟩ := h.extensions
  rw [hes, ← hall]
  rfl

/-- The extensions that a builder keeps for a type are those in the document. -/
theorem TakesUp.extensionsFor (h : TakesUp empty ds b) (name : String) :
    (extensionsFor name b.extensions).map (·.2.body) = (ds.extensionsOf name).map (·.body) := by
  rw [SchemaDocument.extensionsOf, ← h.extensions_map, SchemaBuilder.extensionsFor,
    List.filter_map, List.map_map]
  rfl

/-- The root types that a builder has been given are those that the document names. -/
theorem TakesUp.rootNames (h : TakesUp empty ds b) (kind : OperationKind) :
    b.rootNames kind = ds.rootNames kind := by
  rw [h.roots, rootNames_empty, List.nil_append]

/-- No extension extends one of the scalars that every schema has. -/
theorem extendAll_builtin {s : BuiltinScalar} {t' : GraphQLType}
    (h : extendAll (.builtin s) es = .ok t') : es = [] ∧ t' = .builtin s := by
  cases es with
  | nil =>
      cases h
      exact ⟨rfl, rfl⟩
  | cons e es =>
      obtain ⟨t, hext, -⟩ := ok_bind_iff.1 h
      cases hext

/-- The extended types declare what definitions and extensions declare together. -/
theorem Extended.typesOf (hb : TakesUp empty ds b) (h : Extended b.types b.extensions types) :
    TypesOf ds ds.bodyOf types where
  keys := h.keys.trans hb.keys
  builtin s := by
    obtain ⟨t, ht, hall⟩ := h.types (hb.typesOf.builtin s)
    rw [ht, (extendAll_builtin hall).2]
  defined {d} hd := by
    obtain ⟨t, ht, hdecl⟩ := hb.typesOf.defined hd
    obtain ⟨t', ht', hall⟩ := h.types ht
    refine ⟨t', ht', ?_⟩
    rw [SchemaDocument.bodyOf, ← hb.extensionsFor]
    exact (declared_of_extendAll hdecl hall).2

/-- What has been extended is defined, as the same kind of type. -/
theorem Extended.defines (hb : TakesUp empty ds b) (h : Extended b.types b.extensions types)
    {d : TypeDeclaration} (hd : d ∈ ds.extensions) : ds.Defines d.body.kind d.name := by
  rw [← hb.extensions_map, List.mem_map] at hd
  obtain ⟨e, he, rfl⟩ := hd
  obtain ⟨t, ht⟩ := OrderedMap.mem_keys_iff.1 (h.named e he)
  obtain ⟨t', -, hall⟩ := h.types ht
  -- the extension is among those that its type goes through
  have hmem : e ∈ SchemaBuilder.extensionsFor e.2.name b.extensions :=
    List.mem_filter.2 ⟨he, by simp⟩
  rcases hb.typesOf.cases ht with ⟨s, -, rfl⟩ | ⟨d, hd, hname, hdecl⟩
  · rw [(extendAll_builtin hall).1] at hmem
    exact absurd hmem List.not_mem_nil
  · exact ⟨d, hd, hname, ((declared_of_extendAll hdecl hall).1 e hmem).symm⟩

/-- The extensions of a sound document can be applied. -/
theorem exists_extended (hb : TakesUp empty ds b) (hds : ds.Sound) :
    ∃ types, b.extensions.foldlM applyExtension b.types = .ok types := by
  have hof := hb.typesOf
  have hdefined : ∀ e ∈ b.extensions, ds.Defines e.2.body.kind e.2.name := fun e he =>
    hds.extensions e.2 (hb.extensions_map ▸ List.mem_map_of_mem he)
  apply exists_applyAll
  · intro e he
    rw [hof.keys]
    exact SchemaDocument.mem_typeNames_of_defines (hdefined e he)
  · intro name t ht
    have hown : ∀ e ∈ SchemaBuilder.extensionsFor name b.extensions,
        e ∈ b.extensions ∧ e.2.name = name := fun e he => by
      simpa [SchemaBuilder.extensionsFor] using he
    rcases hof.cases ht with ⟨s, rfl, rfl⟩ | ⟨d, hd, rfl, hdecl⟩
    · -- nothing defines the scalar, so that nothing extends it
      refine ⟨.builtin s, ?_⟩
      have hnone : SchemaBuilder.extensionsFor s.name b.extensions = [] := by
        rw [List.eq_nil_iff_forall_not_mem]
        intro e he
        obtain ⟨he, hname⟩ := hown e he
        obtain ⟨d, hd, hd_name, -⟩ := hdefined e he
        exact SchemaDocument.name_ne_of_defined hds.names hd s (hd_name.trans hname)
      rw [hnone]
      rfl
    · refine exists_extendAll hdecl (fun e he => ?_) ?_
      · obtain ⟨he, hname⟩ := hown e he
        obtain ⟨d', hd', hd_name, hkind⟩ := hdefined e he
        rw [SchemaDocument.eq_of_name_eq hds.names hd hd' (hname.symm.trans hd_name.symm)]
        exact hkind.symm
      · rw [hb.extensionsFor]
        exact hds.apart d hd

end SchemaBuilder

end QueryPlan
