import QueryPlan.Schema.Basic
import QueryPlan.Schema.Error
import QueryPlan.Syntax.Grammar.TypeSystem

/-!
# Building schemas

A `SchemaBuilder` takes up definitions from any number of sources. Extensions wait until
`build`, so that they may come before what they extend. Then every object and interface gets
the field `__typename`, references between types are checked, and the root types are settled: a
`schema` block names them, and where none does, an object with the usual name is taken.
-/

set_option autoImplicit false

namespace QueryPlan

open QueryPlan.Syntax

/-- Definitions taken up so far. -/
structure SchemaBuilder where
  types : OrderedMap String GraphQLType
  /-- Extensions in the order in which they came, each with its file. -/
  extensions : List (String × TypeDeclaration)
  query : Option RootReference
  mutation : Option RootReference
  subscription : Option RootReference
  /-- Counts the sources that came without a name of their own. -/
  unnamedSources : UInt16

namespace SchemaBuilder

/-- A builder that has only the types of every schema. -/
def empty : SchemaBuilder :=
  ⟨.ofList (BuiltinScalar.all.map fun s => (s.name, .builtin s)), [], none, none, none, 0⟩

/-! ## Taking up definitions -/

/-- Adds field definitions to the fields of a type; no name may come twice. -/
def addFields (type file : String) (fields : OrderedMap String Field)
    (ds : List FieldDefinition) : Except SchemaError (OrderedMap String Field) :=
  ds.foldlM
    (fun fields d =>
      match fields.get? d.name with
      | some e => .error (.duplicateField type d.name e.location (.source file d.position))
      | none => .ok (fields.insert d.name (.ofDefinition file d)))
    fields

/-- Adds interfaces to those of a type; none may come twice. -/
def addInterfaces (type : String) (location : SchemaLocation) (interfaces : List String)
    (names : List String) : Except SchemaError (List String) :=
  names.foldlM
    (fun interfaces name =>
      if name ∈ interfaces then .error (.duplicateInterface type name location)
      else .ok (interfaces ++ [name]))
    interfaces

/-- Adds members to those of a union; none may come twice. -/
def addMembers (union : String) (location : SchemaLocation)
    (members : OrderedMap String SchemaLocation) (names : List String) :
    Except SchemaError (OrderedMap String SchemaLocation) :=
  names.foldlM
    (fun members name =>
      if members.contains name then .error (.duplicateMember union name location)
      else .ok (members.insert name location))
    members

/-- The type that a declaration defines. -/
def typeOf (file : String) (d : TypeDeclaration) : Except SchemaError GraphQLType := do
  let location := SchemaLocation.source file d.position
  match d.body with
  | .scalar => return .scalar ⟨d.name, d.description, location⟩
  | .enum values => return .enum ⟨d.name, values, d.description, location⟩
  | .inputObject fields =>
    return .inputObject ⟨d.name, Parameter.collect file fields, d.description, location⟩
  | .interface interfaces fields =>
    let fs ← addFields d.name file .empty fields
    let is ← addInterfaces d.name location [] interfaces
    return .interface ⟨d.name, is, fs, d.description, location⟩
  | .object interfaces fields =>
    let fs ← addFields d.name file .empty fields
    let is ← addInterfaces d.name location [] interfaces
    return .object ⟨d.name, is, fs, d.description, location⟩
  | .union members =>
    return .union ⟨d.name, ← addMembers d.name location .empty members, d.description, location⟩

/-- Whether a declaration repeats one of the scalars that every schema has. -/
def redeclaresBuiltin (d : TypeDeclaration) : Bool :=
  match d.body with
  | .scalar => BuiltinScalar.all.any fun s => s.name = d.name
  | _ => false

/-- Defines a type. A scalar that every schema has may be declared again, to no effect. -/
def defineType (b : SchemaBuilder) (file : String) (d : TypeDeclaration) :
    Except SchemaError SchemaBuilder :=
  if redeclaresBuiltin d then .ok b
  else do
    let t ← typeOf file d
    match b.types.get? d.name with
    | some e => .error (.duplicateType d.name e.location t.location)
    | none => return { b with types := b.types.insert d.name t }

/-- The root type named so far for a kind of operation. -/
def root? (b : SchemaBuilder) : OperationKind → Option RootReference
  | .query => b.query
  | .mutation => b.mutation
  | .subscription => b.subscription

def setRoot (b : SchemaBuilder) (r : RootReference) : OperationKind → SchemaBuilder
  | .query => { b with query := some r }
  | .mutation => { b with mutation := some r }
  | .subscription => { b with subscription := some r }

/-- Names the root type for a kind of operation; it may be named only once. -/
def nameRoot (location : SchemaLocation) (b : SchemaBuilder) :
    OperationKind × Option String → Except SchemaError SchemaBuilder
  | (_, none) => .ok b
  | (kind, some type) =>
    match b.root? kind with
    | some e => .error (.duplicateRoot kind e ⟨type, location⟩)
    | none => .ok (b.setRoot ⟨type, location⟩ kind)

/-- Takes up the root types of a `schema` block. -/
def nameRoots (b : SchemaBuilder) (file : String) (r : RootTypes) :
    Except SchemaError SchemaBuilder :=
  [(OperationKind.query, r.query), (.mutation, r.mutation), (.subscription, r.subscription)].foldlM
    (nameRoot (.source file r.position)) b

/-- Takes up one definition. Directive definitions have no bearing on a schema. -/
def addDefinition (file : String) (b : SchemaBuilder) :
    SchemaDefinition → Except SchemaError SchemaBuilder
  | .roots r => b.nameRoots file r
  | .type d => b.defineType file d
  | .extension d => .ok { b with extensions := b.extensions ++ [(file, d)] }
  | .directive _ => .ok b

/-- Takes up the definitions of a file in order. -/
def addDocument (b : SchemaBuilder) (file : String) (definitions : SchemaDocument) :
    Except SchemaError SchemaBuilder :=
  definitions.foldlM (addDefinition file) b

/-- The name of a source: its path, or a made-up one that counts the unnamed sources. -/
def nameSource (b : SchemaBuilder) (path : Option String) : String × SchemaBuilder :=
  match path with
  | some p => (p, b)
  | none =>
    (s!"str://{b.unnamedSources.toNat}", { b with unnamedSources := b.unnamedSources + 1 })

/-- Takes up a source text, which may have a path. -/
def load (b : SchemaBuilder) (path : Option String) (source : String) :
    Except SchemaError SchemaBuilder :=
  let (file, b) := b.nameSource path
  match SchemaDocument.ofSource? source with
  | none => .error (.malformed file)
  | some definitions => b.addDocument file definitions

/-- Takes up the files at some paths. -/
def loadFiles (b : SchemaBuilder) (files : FileSystem) (paths : List String) :
    Except SchemaError SchemaBuilder :=
  paths.foldlM
    (fun b path =>
      match files.readText path with
      | .error e => .error (.unreadable e)
      | .ok source => b.load (some path) source)
    b

/-! ## Extensions -/

/-- A type with what an extension adds to it. The extension must be one for the same kind of
type. -/
def extend (file : String) (d : TypeDeclaration) (t : GraphQLType) :
    Except SchemaError GraphQLType := do
  let location := SchemaLocation.source file d.position
  match t, d.body with
  | .enum e, .enum values => return .enum { e with values := e.values ++ values }
  | .inputObject i, .inputObject fields =>
    return .inputObject
      { i with fields := i.fields.insertAll (fields.map fun f => (f.name, .ofDefinition file f)) }
  | .interface i, .interface _ fields =>
    return .interface { i with fields := ← addFields i.name file i.fields fields }
  | .object o, .object interfaces fields =>
    let fs ← addFields o.name file o.fields fields
    let is ← addInterfaces o.name location o.interfaces interfaces
    return .object { o with fields := fs, interfaces := is }
  | .scalar s, .scalar => return .scalar s
  | .union u, .union members =>
    return .union { u with members := ← addMembers u.name location u.members members }
  | t, _ => .error (.extensionOfOtherKind d.name t.kind location)

/-- Applies an extension to the type it names. -/
def applyExtension (types : OrderedMap String GraphQLType) (e : String × TypeDeclaration) :
    Except SchemaError (OrderedMap String GraphQLType) :=
  match types.get? e.2.name with
  | none => .error (.extensionOfUndefined e.2.name (.source e.1 e.2.position))
  | some t => do return types.insert e.2.name (← extend e.1 e.2 t)

/-- A type with the field `__typename`, where it has fields. -/
def withTypename : GraphQLType → GraphQLType
  | .object t => .object { t with fields := t.fields.insert "__typename" .typename }
  | .interface t => .interface { t with fields := t.fields.insert "__typename" .typename }
  | t => t

/-! ## References between types -/

/-- Every field has a type that is defined. -/
def checkFields (types : OrderedMap String GraphQLType) (owner : String)
    (fields : OrderedMap String Field) : Except SchemaError Unit :=
  fields.values.forM fun f =>
    if types.contains f.type.innermost then .ok ()
    else .error (.undefinedType f.type.innermost s!"{owner}.{f.name}" f.location)

/-- Every implemented interface is one. -/
def checkInterfaces (types : OrderedMap String GraphQLType) (owner : String)
    (location : SchemaLocation) (interfaces : List String) : Except SchemaError Unit :=
  interfaces.forM fun name =>
    match types.get? name with
    | some (.interface _) => .ok ()
    | some t => .error (.implementsNonInterface owner name t.kind location)
    | none => .error (.undefinedType name owner location)

/-- Every member of a union is an object. -/
def checkMembers (types : OrderedMap String GraphQLType) (u : UnionType) :
    Except SchemaError Unit :=
  u.members.entries.forM fun (name, location) =>
    match types.get? name with
    | some (.object _) => .ok ()
    | some t => .error (.memberNotObject u.name name t.kind location)
    | none => .error (.undefinedType name u.name location)

/-- What a type refers to is defined and of the right kind. -/
def checkType (types : OrderedMap String GraphQLType) : GraphQLType → Except SchemaError Unit
  | .interface t => do
    checkFields types t.name t.fields
    checkInterfaces types t.name t.location t.interfaces
  | .object t => do
    checkFields types t.name t.fields
    checkInterfaces types t.name t.location t.interfaces
  | .union u => checkMembers types u
  | _ => .ok ()

/-! ## The finished schema -/

/-- The root type for a kind of operation: the one that was named, which must be an object, or
else the object with the usual name, if there is one. -/
def resolveRoot (types : OrderedMap String GraphQLType) (kind : OperationKind)
    (named : Option RootReference) : Except SchemaError (Option String) :=
  match named with
  | some r =>
    match types.get? r.type with
    | some (.object _) => .ok (some r.type)
    | some t => .error (.rootNotObject kind r.type t.kind r.location)
    | none => .error (.undefinedType r.type s!"schema.{kind.keyword}" r.location)
  | none =>
    match types.get? kind.defaultRootName with
    | some (.object t) => .ok (some t.name)
    | _ => .ok none

/-- Notes a type among the interfaces or as an implementation of its interfaces. -/
def noteImplementations (m : OrderedMap String (List String)) :
    GraphQLType → OrderedMap String (List String)
  | .interface t => if m.contains t.name then m else m.insert t.name []
  | .object t =>
    t.interfaces.foldl (fun m i => m.insert i ((m.get? i).getD [] ++ [t.name])) m
  | _ => m

/-- The schema of all definitions taken up. -/
def build (b : SchemaBuilder) : Except SchemaError Schema := do
  let extended ← b.extensions.foldlM applyExtension b.types
  let types := extended.mapValues fun _ t => withTypename t
  types.values.forM (checkType types)
  match ← resolveRoot types .query b.query with
  | none => .error .noQueryRoot
  | some query =>
    let mutation ← resolveRoot types .mutation b.mutation
    let subscription ← resolveRoot types .subscription b.subscription
    return ⟨types, query, mutation, subscription,
      types.values.foldl noteImplementations .empty⟩

end SchemaBuilder

end QueryPlan
