import QueryPlan.Proofs.Run
import QueryPlan.Proofs.Schema.Declarations

/-!
# Types from their declarations

A type is made from the definition of it, and then extended. `Declared` says that a type is what
a body declares, up to places. The type of a definition is declared by the body of it, and with
every extension the type is declared by the extended body. Making and extending a type fail
exactly where something would be declared twice.
-/

set_option autoImplicit false

namespace QueryPlan

open QueryPlan.Syntax

/-! ## What types hold -/

namespace GraphQLType

/-- The interfaces that a type names. -/
def interfaces : GraphQLType → List String
  | .object t => t.interfaces
  | .interface t => t.interfaces
  | _ => []

/-- The fields of an object or an interface. -/
def fields : GraphQLType → OrderedMap String Field
  | .object t => t.fields
  | .interface t => t.fields
  | _ => .empty

/-- The members of a union, with the places where they were added. -/
def members : GraphQLType → OrderedMap String SchemaLocation
  | .union t => t.members
  | _ => .empty

def values : GraphQLType → List String
  | .enum t => t.values
  | _ => []

/-- The fields of an input object. -/
def inputs : GraphQLType → OrderedMap String Parameter
  | .inputObject t => t.fields
  | _ => .empty

/-- The type is what a body declares under a name, with a description. Where a kind of type has
no such contents, there are none on either side. -/
structure Declared (t : GraphQLType) (name : String) (description : Option String)
    (b : TypeBody) : Prop where
  name : t.name = name := by rfl
  description : t.description = description := by rfl
  kind : t.kind = b.kind := by rfl
  interfaces : t.interfaces = b.interfaces := by rfl
  interfaces_nodup : t.interfaces.Nodup := by exact List.nodup_nil
  fields : (t.fields.mapValues fun _ f => f.placeless).entries
    = b.fields.map fun d => (d.name, d.element) := by rfl
  members : t.members.keys = b.members := by rfl
  values : t.values = b.values := by rfl
  inputs : (t.inputs.mapValues fun _ p => p.placeless)
    = .ofList (b.inputs.map fun d => (d.name, d.element)) := by rfl

variable {t t' : GraphQLType} {name : String} {description : Option String} {b : TypeBody}

/-- The names of the fields are those that were declared. -/
theorem Declared.fields_keys (h : t.Declared name description b) :
    t.fields.keys = b.fields.map (·.name) := by
  have hkeys := congrArg (List.map Prod.fst) h.fields
  rw [List.map_map] at hkeys
  rw [← OrderedMap.keys_mapValues fun _ f => Field.placeless f]
  exact hkeys

/-- A type holds nothing twice, and so neither does what declares it. -/
theorem Declared.apart (h : t.Declared name description b) : b.Apart where
  interfaces := h.interfaces ▸ h.interfaces_nodup
  fields := h.fields_keys ▸ t.fields.keys_nodup
  members := h.members ▸ t.members.keys_nodup

/-- What a body declares is determined up to places. -/
theorem Declared.placeless_eq (h : t.Declared name description b)
    (h' : t'.Declared name description b) : t.placeless = t'.placeless := by
  have hname := h.name.trans h'.name.symm
  have hdescription := h.description.trans h'.description.symm
  have hkind := h.kind.trans h'.kind.symm
  have hinterfaces := h.interfaces.trans h'.interfaces.symm
  have hfields := OrderedMap.ext (h.fields.trans h'.fields.symm)
  have hvalues := h.values.trans h'.values.symm
  have hinputs := h.inputs.trans h'.inputs.symm
  have hmembers : (t.members.mapValues fun _ _ => SchemaLocation.builtin)
      = t'.members.mapValues fun _ _ => .builtin := by
    have hkeys := h.members.trans h'.members.symm
    refine OrderedMap.ext_get? (by simpa using hkeys) fun k => ?_
    rw [OrderedMap.get?_mapValues, OrderedMap.get?_mapValues]
    by_cases hk : k ∈ t.members.keys
    · obtain ⟨a, ha⟩ := OrderedMap.mem_keys_iff.1 hk
      obtain ⟨a', ha'⟩ := OrderedMap.mem_keys_iff.1 (hkeys ▸ hk)
      rw [ha, ha']
      rfl
    · rw [OrderedMap.get?_eq_none_iff.2 hk, OrderedMap.get?_eq_none_iff.2 (hkeys ▸ hk)]
  cases t <;> cases t' <;> cases hkind <;>
    simp_all [GraphQLType.placeless, GraphQLType.name, GraphQLType.description,
      GraphQLType.interfaces, GraphQLType.fields, GraphQLType.members, GraphQLType.values,
      GraphQLType.inputs]

end GraphQLType

namespace SchemaBuilder

/-! ## Fields, interfaces and members -/

/-- A loop that inserts under new keys only comes to an end unless a key comes twice, in which
case the entries would make no map. -/
theorem insertNew_eq_ok_iff {ε α δ : Type} {step : OrderedMap String α → δ →
      Except ε (OrderedMap String α)} {key : δ → String} {value : δ → α}
    (hnew : ∀ m d, key d ∉ m.keys → step m d = .ok (m.insert (key d) (value d)))
    (hold : ∀ m d, key d ∈ m.keys → ∃ e, step m d = .error e)
    {m m' : OrderedMap String α} {ds : List δ} :
    ds.foldlM step m = .ok m' ↔
      m'.entries = m.entries ++ ds.map fun d => (key d, value d) := by
  induction ds generalizing m with
  | nil =>
      rw [List.map_nil, List.append_nil]
      constructor
      · intro h
        cases h
        rfl
      · intro h
        exact congrArg Except.ok (OrderedMap.ext h).symm
  | cons d ds ih =>
      rw [List.foldlM_cons, ok_bind_iff]
      by_cases hmem : key d ∈ m.keys
      · obtain ⟨e, he⟩ := hold m d hmem
        rw [he]
        constructor
        · rintro ⟨_, h, _⟩
          cases h
        · intro h
          -- the key would stand under two entries
          have hnodup := m'.nodup_keys
          rw [h, List.map_append, List.map_cons] at hnodup
          exact absurd List.mem_cons_self (List.disjoint_of_nodup_append hnodup hmem)
      · have hrest := ih (m := m.insert (key d) (value d))
        rw [OrderedMap.entries_insert_of_notMem _ hmem, List.append_assoc] at hrest
        rw [hnew m d hmem]
        constructor
        · rintro ⟨_, h, h'⟩
          cases h
          exact hrest.1 h'
        · intro h
          exact ⟨_, rfl, hrest.2 h⟩

theorem addFields_eq_ok_iff {type file : String} {fields fields' : OrderedMap String Field}
    {ds : List FieldDefinition} :
    addFields type file fields ds = .ok fields' ↔
      fields'.entries = fields.entries ++ ds.map fun d => (d.name, .ofDefinition file d) := by
  apply insertNew_eq_ok_iff
  · intro m d hnew
    rw [OrderedMap.get?_eq_none_iff.2 hnew]
  · intro m d hold
    obtain ⟨f, hf⟩ := OrderedMap.mem_keys_iff.1 hold
    rw [hf]
    exact ⟨_, rfl⟩

theorem addMembers_eq_ok_iff {union : String} {location : SchemaLocation}
    {members members' : OrderedMap String SchemaLocation} {names : List String} :
    addMembers union location members names = .ok members' ↔
      members'.entries = members.entries ++ names.map fun name => (name, location) := by
  apply insertNew_eq_ok_iff
  · intro m name hnew
    rw [OrderedMap.contains_eq_false_iff.2 hnew]
    rfl
  · intro m name hold
    rw [OrderedMap.contains_iff.2 hold]
    exact ⟨_, rfl⟩

theorem addInterfaces_eq_ok_iff {type : String} {location : SchemaLocation}
    {interfaces interfaces' names : List String} (hi : interfaces.Nodup) :
    addInterfaces type location interfaces names = .ok interfaces' ↔
      interfaces' = interfaces ++ names ∧ interfaces'.Nodup := by
  induction names generalizing interfaces with
  | nil =>
      rw [List.append_nil]
      constructor
      · intro h
        cases h
        exact ⟨rfl, hi⟩
      · rintro ⟨rfl, -⟩
        rfl
  | cons name names ih =>
      rw [addInterfaces, List.foldlM_cons, ok_bind_iff]
      by_cases hmem : name ∈ interfaces
      · rw [if_pos hmem]
        constructor
        · rintro ⟨_, h, _⟩
          cases h
        · rintro ⟨rfl, hnodup⟩
          exact absurd List.mem_cons_self (List.disjoint_of_nodup_append hnodup hmem)
      · have hone : (interfaces ++ [name]).Nodup :=
          hi.append (List.nodup_singleton _) (List.disjoint_singleton.2 hmem)
        have hrest := ih hone
        rw [List.append_assoc] at hrest
        rw [if_neg hmem]
        constructor
        · rintro ⟨_, h, h'⟩
          cases h
          exact hrest.1 h'
        · intro h
          exact ⟨_, rfl, hrest.2 h⟩

/-- Fields that are added are added up to places. -/
theorem entries_of_addFields {type file : String} {fields fields' : OrderedMap String Field}
    {ds : List FieldDefinition} (h : addFields type file fields ds = .ok fields') :
    (fields'.mapValues fun _ f => f.placeless).entries
      = (fields.mapValues fun _ f => f.placeless).entries
        ++ ds.map fun d => (d.name, d.element) := by
  show fields'.entries.map _ = fields.entries.map _ ++ _
  rw [addFields_eq_ok_iff.1 h, List.map_append, List.map_map]
  simp [Function.comp_def]

/-- Distinct names can be added. -/
theorem exists_addFields (type file : String) (fields : OrderedMap String Field)
    {ds : List FieldDefinition} (h : (fields.keys ++ ds.map (·.name)).Nodup) :
    ∃ fields', addFields type file fields ds = .ok fields' := by
  refine ⟨⟨fields.entries ++ ds.map fun d => (d.name, .ofDefinition file d), ?_⟩,
    addFields_eq_ok_iff.2 rfl⟩
  rwa [List.map_append, List.map_map]

/-- Distinct names can be added to the interfaces. -/
theorem addInterfaces_of_nodup (type : String) (location : SchemaLocation)
    (interfaces : List String) {names : List String} (h : (interfaces ++ names).Nodup) :
    addInterfaces type location interfaces names = .ok (interfaces ++ names) :=
  (addInterfaces_eq_ok_iff h.of_append_left).2 ⟨rfl, h⟩

theorem keys_of_addMembers {union : String} {location : SchemaLocation}
    {members members' : OrderedMap String SchemaLocation} {names : List String}
    (h : addMembers union location members names = .ok members') :
    members'.keys = members.keys ++ names := by
  rw [OrderedMap.keys, addMembers_eq_ok_iff.1 h, List.map_append, List.map_map]
  simp [OrderedMap.keys, Function.comp_def]

theorem exists_addMembers (union : String) (location : SchemaLocation)
    (members : OrderedMap String SchemaLocation) {names : List String}
    (h : (members.keys ++ names).Nodup) :
    ∃ members', addMembers union location members names = .ok members' := by
  refine ⟨⟨members.entries ++ names.map fun name => (name, location), ?_⟩,
    addMembers_eq_ok_iff.2 rfl⟩
  rw [List.map_append, List.map_map]
  simpa [OrderedMap.keys, Function.comp_def] using h

/-! ## Definitions -/

/-- The type of a definition is declared by the body of it. -/
theorem declared_of_typeOf {file : String} {d : TypeDeclaration} {t : GraphQLType}
    (h : typeOf file d = .ok t) : t.Declared d.name d.description d.body := by
  obtain ⟨name, description, body, position⟩ := d
  unfold typeOf at h
  cases body with
  | scalar =>
      cases h
      exact {}
  | enum values =>
      cases h
      exact {}
  | inputObject fields =>
      cases h
      exact { inputs := Parameter.placeless_collect file fields }
  | interface interfaces fields =>
      obtain ⟨fs, hfs, h⟩ := ok_bind_iff.1 h
      obtain ⟨is, his, h⟩ := ok_bind_iff.1 h
      obtain ⟨rfl, hnodup⟩ := (addInterfaces_eq_ok_iff List.nodup_nil).1 his
      cases h
      exact { interfaces_nodup := hnodup, fields := entries_of_addFields hfs }
  | object interfaces fields =>
      obtain ⟨fs, hfs, h⟩ := ok_bind_iff.1 h
      obtain ⟨is, his, h⟩ := ok_bind_iff.1 h
      obtain ⟨rfl, hnodup⟩ := (addInterfaces_eq_ok_iff List.nodup_nil).1 his
      cases h
      exact { interfaces_nodup := hnodup, fields := entries_of_addFields hfs }
  | union members =>
      obtain ⟨ms, hms, h⟩ := ok_bind_iff.1 h
      cases h
      exact { members := keys_of_addMembers hms }

/-- A definition that declares nothing twice makes a type. -/
theorem exists_typeOf (file : String) {d : TypeDeclaration} (h : d.body.Apart) :
    ∃ t, typeOf file d = .ok t := by
  obtain ⟨name, description, body, position⟩ := d
  unfold typeOf
  cases body with
  | scalar => exact ⟨_, rfl⟩
  | enum values => exact ⟨_, rfl⟩
  | inputObject fields => exact ⟨_, rfl⟩
  | interface interfaces fields =>
      obtain ⟨fs, hfs⟩ := exists_addFields name file .empty h.fields
      have his := addInterfaces_of_nodup name (.source file position) [] h.interfaces
      exact ⟨_, ok_bind_iff.2 ⟨fs, hfs, ok_bind_iff.2 ⟨_, his, rfl⟩⟩⟩
  | object interfaces fields =>
      obtain ⟨fs, hfs⟩ := exists_addFields name file .empty h.fields
      have his := addInterfaces_of_nodup name (.source file position) [] h.interfaces
      exact ⟨_, ok_bind_iff.2 ⟨fs, hfs, ok_bind_iff.2 ⟨_, his, rfl⟩⟩⟩
  | union members =>
      obtain ⟨ms, hms⟩ := exists_addMembers name (.source file position) .empty h.members
      exact ⟨_, ok_bind_iff.2 ⟨ms, hms, rfl⟩⟩

/-! ## Extensions -/

variable {t t' : GraphQLType} {name : String} {description : Option String} {b : TypeBody}

/-- What one extension does to a type: it is of the same kind and adds its items behind those
that are there. -/
structure Extends (t : GraphQLType) (e : TypeBody) (t' : GraphQLType) : Prop where
  of_kind : e.kind = t.kind := by rfl
  name : t'.name = t.name := by rfl
  description : t'.description = t.description := by rfl
  kind : t'.kind = t.kind := by rfl
  interfaces : t'.interfaces
    = if t.kind = .object then t.interfaces ++ e.interfaces else t.interfaces := by rfl
  interfaces_nodup : t'.interfaces.Nodup
  fields : (t'.fields.mapValues fun _ f => f.placeless).entries
    = (t.fields.mapValues fun _ f => f.placeless).entries
      ++ e.fields.map fun d => (d.name, d.element) := by rfl
  members : t'.members.keys = t.members.keys ++ e.members := by rfl
  values : t'.values = t.values ++ e.values := by rfl
  inputs : (t'.inputs.mapValues fun _ p => p.placeless)
    = (t.inputs.mapValues fun _ p => p.placeless).insertAll
      (e.inputs.map fun d => (d.name, d.element)) := by rfl

theorem extends_of_extend {file : String} {e : TypeDeclaration} (ht : t.interfaces.Nodup)
    (h : extend file e t = .ok t') : Extends t e.body t' := by
  obtain ⟨ename, edescription, ebody, eposition⟩ := e
  unfold extend at h
  split at h
  case h_1 u values hbody =>
    cases hbody
    cases h
    exact { interfaces_nodup := ht }
  case h_2 u fields hbody =>
    cases hbody
    cases h
    refine { interfaces_nodup := ht, inputs := ?_ }
    show (u.fields.insertAll _).mapValues _ = (u.fields.mapValues _).insertAll _
    rw [OrderedMap.mapValues_insertAll, List.map_map]
    rfl
  case h_3 u _ fields hbody =>
    cases hbody
    obtain ⟨fs, hfs, h⟩ := ok_bind_iff.1 h
    cases h
    exact { interfaces_nodup := ht, fields := entries_of_addFields hfs }
  case h_4 u interfaces fields hbody =>
    cases hbody
    obtain ⟨fs, hfs, h⟩ := ok_bind_iff.1 h
    obtain ⟨is, his, h⟩ := ok_bind_iff.1 h
    cases h
    obtain ⟨rfl, hnodup⟩ := (addInterfaces_eq_ok_iff ht).1 his
    exact { interfaces_nodup := hnodup, fields := entries_of_addFields hfs }
  case h_5 s hbody =>
    cases hbody
    cases h
    exact { interfaces_nodup := ht }
  case h_6 u members hbody =>
    cases hbody
    obtain ⟨ms, hms, h⟩ := ok_bind_iff.1 h
    cases h
    exact { interfaces_nodup := ht, members := keys_of_addMembers hms }
  case h_7 => cases h

/-- A type is extended by a declaration of its own kind, and is declared by both then. -/
theorem declared_of_extend {file : String} {e : TypeDeclaration}
    (ht : t.Declared name description b) (h : extend file e t = .ok t') :
    e.body.kind = b.kind ∧ t'.Declared name description (b.extendedBy [e.body]) := by
  have hext := extends_of_extend ht.interfaces_nodup h
  have hkind : e.body.kind = b.kind := hext.of_kind.trans ht.kind
  refine ⟨hkind, ?_⟩
  exact {
    name := hext.name.trans ht.name
    description := hext.description.trans ht.description
    kind := by rw [hext.kind, ht.kind, TypeBody.kind_extendedBy]
    interfaces := by
      rw [hext.interfaces, ht.kind, ht.interfaces, TypeBody.interfaces_extendedBy hkind]
    interfaces_nodup := hext.interfaces_nodup
    fields := by rw [hext.fields, ht.fields, TypeBody.fields_extendedBy hkind, List.map_append]
    members := by rw [hext.members, ht.members, TypeBody.members_extendedBy hkind]
    values := by rw [hext.values, ht.values, TypeBody.values_extendedBy hkind]
    inputs := by
      rw [hext.inputs, ht.inputs, TypeBody.inputs_extendedBy hkind, List.map_append,
        OrderedMap.ofList, OrderedMap.ofList, OrderedMap.insertAll_append] }

/-- An extension of the same kind that repeats nothing extends a type. -/
theorem exists_extend (file : String) {e : TypeDeclaration} (ht : t.Declared name description b)
    (hkind : e.body.kind = b.kind) (h : (b.extendedBy [e.body]).Apart) :
    ∃ t', extend file e t = .ok t' := by
  obtain ⟨ename, edescription, ebody, eposition⟩ := e
  have hkinds : t.kind = ebody.kind := ht.kind.trans hkind.symm
  have hfields : (t.fields.keys ++ ebody.fields.map (·.name)).Nodup := by
    rw [ht.fields_keys, ← List.map_append, ← TypeBody.fields_extendedBy hkind]
    exact h.fields
  have hmembers : (t.members.keys ++ ebody.members).Nodup := by
    rw [ht.members, ← TypeBody.members_extendedBy hkind]
    exact h.members
  have hinterfaces := h.interfaces
  rw [TypeBody.interfaces_extendedBy hkind, ← ht.kind, ← ht.interfaces] at hinterfaces
  unfold extend
  cases ebody with
  | scalar => cases t <;> cases hkinds; exact ⟨_, rfl⟩
  | enum values => cases t <;> cases hkinds; exact ⟨_, rfl⟩
  | inputObject fields => cases t <;> cases hkinds; exact ⟨_, rfl⟩
  | interface interfaces fields =>
      cases t <;> cases hkinds
      obtain ⟨fs, hfs⟩ := exists_addFields _ _ _ hfields
      exact ⟨_, ok_bind_iff.2 ⟨fs, hfs, rfl⟩⟩
  | object interfaces fields =>
      cases t <;> cases hkinds
      obtain ⟨fs, hfs⟩ := exists_addFields _ _ _ hfields
      exact ⟨_, ok_bind_iff.2 ⟨fs, hfs, ok_bind_iff.2
        ⟨_, addInterfaces_of_nodup _ _ _ hinterfaces, rfl⟩⟩⟩
  | union members =>
      cases t <;> cases hkinds
      obtain ⟨ms, hms⟩ := exists_addMembers _ _ _ hmembers
      exact ⟨_, ok_bind_iff.2 ⟨ms, hms, rfl⟩⟩

/-- Applies extensions to a type, one after another. -/
def extendAll (t : GraphQLType) (es : List (String × TypeDeclaration)) :
    Except SchemaError GraphQLType :=
  es.foldlM (fun t e => extend e.1 e.2 t) t

theorem declared_of_extendAll {es : List (String × TypeDeclaration)}
    (ht : t.Declared name description b) (h : extendAll t es = .ok t') :
    (∀ e ∈ es, e.2.body.kind = b.kind) ∧
      t'.Declared name description (b.extendedBy (es.map (·.2.body))) := by
  induction es generalizing t b with
  | nil =>
      cases h
      exact ⟨fun e he => absurd he List.not_mem_nil, by simpa using ht⟩
  | cons e es ih =>
      rw [extendAll, List.foldlM_cons, ok_bind_iff] at h
      obtain ⟨t₁, hone, hrest⟩ := h
      obtain ⟨hkind, ht₁⟩ := declared_of_extend ht hone
      obtain ⟨hkinds, ht'⟩ := ih ht₁ hrest
      rw [TypeBody.kind_extendedBy] at hkinds
      rw [List.map_cons, TypeBody.extendedBy_cons]
      exact ⟨List.forall_mem_cons.2 ⟨hkind, hkinds⟩, ht'⟩

theorem exists_extendAll {es : List (String × TypeDeclaration)}
    (ht : t.Declared name description b) (hkind : ∀ e ∈ es, e.2.body.kind = b.kind)
    (h : (b.extendedBy (es.map (·.2.body))).Apart) : ∃ t', extendAll t es = .ok t' := by
  induction es generalizing t b with
  | nil => exact ⟨t, rfl⟩
  | cons e es ih =>
      rw [List.map_cons, TypeBody.extendedBy_cons] at h
      rw [List.forall_mem_cons] at hkind
      -- what is declared with one extension stays when there are more
      obtain ⟨t₁, hone⟩ := exists_extend e.1 ht hkind.1 h.of_extendedBy
      have ht₁ := (declared_of_extend ht hone).2
      obtain ⟨t', hrest⟩ := ih ht₁ (by simpa using hkind.2) h
      exact ⟨t', ok_bind_iff.2 ⟨t₁, hone, hrest⟩⟩

end SchemaBuilder

end QueryPlan
