import Mathlib.Data.List.Nodup
import QueryPlan.Proofs.Schema.Placeless

/-!
# What schema documents declare

A type is defined once and extended any number of times, anywhere in the sources. `bodyOf` puts
together what the definition of a type and its extensions declare. A document is `Sound` when
all of its declarations fit together: this is said of definitions and names alone, so that
neither the order of the definitions nor the places where they stand come into it.
-/

set_option autoImplicit false

namespace QueryPlan

namespace Syntax

/-! ## Bodies of declarations -/

namespace TypeBody

/-- The kind of type that a body belongs to. -/
def kind : TypeBody → TypeKind
  | .scalar => .scalar
  | .object _ _ => .object
  | .interface _ _ => .interface
  | .union _ => .union
  | .enum _ => .enum
  | .inputObject _ => .inputObject

/-- The interfaces that a body names. -/
def interfaces : TypeBody → List String
  | .object is _ | .interface is _ => is
  | _ => []

/-- The fields of an object or an interface. -/
def fields : TypeBody → List FieldDefinition
  | .object _ fs | .interface _ fs => fs
  | _ => []

def members : TypeBody → List String
  | .union ms => ms
  | _ => []

def values : TypeBody → List String
  | .enum vs => vs
  | _ => []

/-- The fields of an input object. -/
def inputs : TypeBody → List InputValueDefinition
  | .inputObject fs => fs
  | _ => []

/-- What the body of a definition declares together with those of its extensions. What an
extension of an interface names as interfaces does not count. -/
def extendedBy (b : TypeBody) (es : List TypeBody) : TypeBody :=
  match b with
  | .scalar => .scalar
  | .object is fs => .object (is ++ es.flatMap interfaces) (fs ++ es.flatMap fields)
  | .interface is fs => .interface is (fs ++ es.flatMap fields)
  | .union ms => .union (ms ++ es.flatMap members)
  | .enum vs => .enum (vs ++ es.flatMap values)
  | .inputObject fs => .inputObject (fs ++ es.flatMap inputs)

/-- Nothing is declared twice that must not be. The values of an enum and the fields of an
input object may come more than once. -/
structure Apart (b : TypeBody) : Prop where
  interfaces : b.interfaces.Nodup
  fields : (b.fields.map (·.name)).Nodup
  members : b.members.Nodup

@[simp] theorem extendedBy_nil (b : TypeBody) : b.extendedBy [] = b := by
  cases b <;> simp [extendedBy]

theorem extendedBy_cons (b e : TypeBody) (es : List TypeBody) :
    b.extendedBy (e :: es) = (b.extendedBy [e]).extendedBy es := by
  cases b <;> simp [extendedBy]

@[simp] theorem kind_extendedBy (b : TypeBody) (es : List TypeBody) :
    (b.extendedBy es).kind = b.kind := by
  cases b <;> rfl

/-- An extension of the same kind adds its fields. -/
theorem fields_extendedBy {b e : TypeBody} (h : e.kind = b.kind) :
    (b.extendedBy [e]).fields = b.fields ++ e.fields := by
  cases b <;> cases e <;> cases h <;> simp [extendedBy, fields]

theorem members_extendedBy {b e : TypeBody} (h : e.kind = b.kind) :
    (b.extendedBy [e]).members = b.members ++ e.members := by
  cases b <;> cases e <;> cases h <;> simp [extendedBy, members]

theorem values_extendedBy {b e : TypeBody} (h : e.kind = b.kind) :
    (b.extendedBy [e]).values = b.values ++ e.values := by
  cases b <;> cases e <;> cases h <;> simp [extendedBy, values]

theorem inputs_extendedBy {b e : TypeBody} (h : e.kind = b.kind) :
    (b.extendedBy [e]).inputs = b.inputs ++ e.inputs := by
  cases b <;> cases e <;> cases h <;> simp [extendedBy, inputs]

/-- Only an object takes over the interfaces of an extension. -/
theorem interfaces_extendedBy {b e : TypeBody} (h : e.kind = b.kind) :
    (b.extendedBy [e]).interfaces
      = if b.kind = .object then b.interfaces ++ e.interfaces else b.interfaces := by
  cases b <;> cases e <;> cases h <;> simp [extendedBy, interfaces, kind]

@[simp] theorem kind_placeless (b : TypeBody) : b.placeless.kind = b.kind := by
  cases b <;> rfl

@[simp] theorem interfaces_placeless (b : TypeBody) : b.placeless.interfaces = b.interfaces := by
  cases b <;> rfl

@[simp] theorem fields_placeless (b : TypeBody) :
    b.placeless.fields = b.fields.map (·.placeless) := by
  cases b <;> rfl

@[simp] theorem members_placeless (b : TypeBody) : b.placeless.members = b.members := by
  cases b <;> rfl

@[simp] theorem values_placeless (b : TypeBody) : b.placeless.values = b.values := by
  cases b <;> rfl

@[simp] theorem inputs_placeless (b : TypeBody) :
    b.placeless.inputs = b.inputs.map (·.placeless) := by
  cases b <;> rfl

theorem placeless_extendedBy (b : TypeBody) (es : List TypeBody) :
    (b.extendedBy es).placeless = b.placeless.extendedBy (es.map placeless) := by
  cases b with
  | scalar => rfl
  | object is fs =>
      show TypeBody.object _ (List.map _ _) = .object _ _
      simp [List.map_flatMap, List.flatMap_map]
  | interface is fs =>
      show TypeBody.interface _ (List.map _ _) = .interface _ _
      simp [List.map_flatMap, List.flatMap_map]
  | union ms =>
      show TypeBody.union _ = .union _
      simp [List.flatMap_map]
  | enum vs =>
      show TypeBody.enum _ = .enum _
      simp [List.flatMap_map]
  | inputObject fs =>
      show TypeBody.inputObject (List.map _ _) = .inputObject _
      simp [List.map_flatMap, List.flatMap_map]

/-- What a definition declares stays when it is extended. -/
theorem Apart.of_extendedBy {b : TypeBody} {es : List TypeBody} (h : (b.extendedBy es).Apart) :
    b.Apart where
  interfaces := by
    refine h.interfaces.sublist ?_
    cases b <;> simp [extendedBy, TypeBody.interfaces]
  fields := by
    refine h.fields.sublist ?_
    cases b <;> simp [extendedBy, TypeBody.fields]
  members := by
    refine h.members.sublist ?_
    cases b <;> simp [extendedBy, TypeBody.members]

end TypeBody

/-! ## Documents -/

/-- The root type that a block names for a kind of operation. -/
def RootTypes.named (r : RootTypes) : OperationKind → Option String
  | .query => r.query
  | .mutation => r.mutation
  | .subscription => r.subscription

namespace SchemaDefinition

/-- The declaration of a type, unless it repeats a scalar that every schema has. -/
def definedType? : SchemaDefinition → Option TypeDeclaration
  | .type d => if SchemaBuilder.redeclaresBuiltin d then none else some d
  | _ => none

def extension? : SchemaDefinition → Option TypeDeclaration
  | .extension d => some d
  | _ => none

/-- The root type that a definition names for a kind of operation. -/
def root? (kind : OperationKind) : SchemaDefinition → Option String
  | .roots r => r.named kind
  | _ => none

theorem definedType?_placeless (d : SchemaDefinition) :
    d.placeless.definedType? = d.definedType?.map (·.placeless) := by
  cases d with
  | type d =>
      have h : SchemaBuilder.redeclaresBuiltin d.placeless = SchemaBuilder.redeclaresBuiltin d := by
        obtain ⟨name, description, body, position⟩ := d
        cases body <;> rfl
      simp only [placeless, definedType?, h]
      split <;> rfl
  | _ => rfl

theorem extension?_placeless (d : SchemaDefinition) :
    d.placeless.extension? = d.extension?.map (·.placeless) := by
  cases d <;> rfl

end SchemaDefinition

namespace SchemaDocument

variable (ds : SchemaDocument)

/-- The definitions of types, in order. -/
def definedTypes : List TypeDeclaration := ds.filterMap (·.definedType?)

/-- The extensions of types, in order. -/
def extensions : List TypeDeclaration := ds.filterMap (·.extension?)

/-- The extensions of one type. -/
def extensionsOf (name : String) : List TypeDeclaration := ds.extensions.filter (·.name = name)

/-- The root types that blocks name for a kind of operation. -/
def rootNames (kind : OperationKind) : List String := ds.filterMap (·.root? kind)

/-- The names of all types: the scalars that every schema has and the defined types. -/
def typeNames : List String := BuiltinScalar.all.map (·.name) ++ ds.definedTypes.map (·.name)

/-- What a definition and the extensions of its type declare together. -/
def bodyOf (d : TypeDeclaration) : TypeBody :=
  d.body.extendedBy ((ds.extensionsOf d.name).map (·.body))

/-- A type of that kind is defined under the name. -/
def Defines (kind : TypeKind) (name : String) : Prop :=
  ∃ d ∈ ds.definedTypes, d.name = name ∧ d.body.kind = kind

instance (kind : TypeKind) (name : String) : Decidable (ds.Defines kind name) :=
  inferInstanceAs (Decidable (∃ d ∈ ds.definedTypes, d.name = name ∧ d.body.kind = kind))

/-- The root type for a kind of operation: the one that is named, or else the object with the
usual name. -/
def rootFor (kind : OperationKind) : Option String :=
  match ds.rootNames kind with
  | name :: _ => some name
  | [] => if ds.Defines .object kind.defaultRootName then some kind.defaultRootName else none

/-- What a body refers to is defined and of the right kind. A field `__typename` is replaced in
any case, so that its type does not matter. -/
structure Closes (b : TypeBody) : Prop where
  fields : ∀ f ∈ b.fields, f.name ≠ "__typename" →
    f.element.type.innermost ∈ ds.typeNames
  interfaces : ∀ i ∈ b.interfaces, ds.Defines .interface i
  members : ∀ m ∈ b.members, ds.Defines .object m

/-- All declarations fit together. -/
structure Sound : Prop where
  /-- No type is defined twice. -/
  names : ds.typeNames.Nodup
  /-- What is extended is defined, as the same kind of type. -/
  extensions : ∀ e ∈ ds.extensions, ds.Defines e.body.kind e.name
  /-- A definition and the extensions of its type declare nothing twice. -/
  apart : ∀ d ∈ ds.definedTypes, (ds.bodyOf d).Apart
  closes : ∀ d ∈ ds.definedTypes, ds.Closes (ds.bodyOf d)
  /-- A root type is named once, and is an object. -/
  roots : ∀ kind, (ds.rootNames kind).length ≤ 1
  rootObjects : ∀ kind, ∀ name ∈ ds.rootNames kind, ds.Defines .object name
  query : (ds.rootFor .query).isSome

variable {ds}

@[simp] theorem definedTypes_append (ds ds' : SchemaDocument) :
    definedTypes (ds ++ ds') = definedTypes ds ++ definedTypes ds' :=
  List.filterMap_append

@[simp] theorem extensions_append (ds ds' : SchemaDocument) :
    extensions (ds ++ ds') = extensions ds ++ extensions ds' :=
  List.filterMap_append

@[simp] theorem rootNames_append (ds ds' : SchemaDocument) (kind : OperationKind) :
    rootNames (ds ++ ds') kind = rootNames ds kind ++ rootNames ds' kind :=
  List.filterMap_append

theorem definedTypes_placeless (ds : SchemaDocument) :
    definedTypes ds.placeless = ds.definedTypes.map (·.placeless) := by
  simp only [definedTypes, placeless, List.filterMap_map, List.map_filterMap, Function.comp_def,
    SchemaDefinition.definedType?_placeless]

theorem extensions_placeless (ds : SchemaDocument) :
    extensions ds.placeless = ds.extensions.map (·.placeless) := by
  simp only [extensions, placeless, List.filterMap_map, List.map_filterMap, Function.comp_def,
    SchemaDefinition.extension?_placeless]

theorem extensionsOf_placeless (ds : SchemaDocument) (name : String) :
    extensionsOf ds.placeless name = (ds.extensionsOf name).map (·.placeless) := by
  rw [extensionsOf, extensions_placeless, List.filter_map]
  rfl

theorem mem_typeNames_of_defines {kind : TypeKind} {name : String} (h : ds.Defines kind name) :
    name ∈ ds.typeNames := by
  obtain ⟨d, hd, rfl, -⟩ := h
  exact List.mem_append_right _ (List.mem_map_of_mem hd)

/-- Definitions of different types have different names. -/
theorem eq_of_name_eq (hnames : ds.typeNames.Nodup) {d d' : TypeDeclaration}
    (hd : d ∈ ds.definedTypes) (hd' : d' ∈ ds.definedTypes) (h : d.name = d'.name) : d = d' :=
  List.inj_on_of_nodup_map (List.Nodup.of_append_right hnames) hd hd' h

/-- No definition has the name of a scalar that every schema has. -/
theorem name_ne_of_defined (hnames : ds.typeNames.Nodup) {d : TypeDeclaration}
    (hd : d ∈ ds.definedTypes) (s : BuiltinScalar) : d.name ≠ s.name := by
  intro h
  have hs : s.name ∈ BuiltinScalar.all.map (·.name) :=
    List.mem_map_of_mem (by cases s <;> decide)
  exact List.disjoint_of_nodup_append hnames hs (h ▸ List.mem_map_of_mem hd)

end SchemaDocument

end Syntax

end QueryPlan
