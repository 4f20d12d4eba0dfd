import QueryPlan.OrderedMap
import QueryPlan.Schema.TypeAnnotation
import QueryPlan.Syntax.TypeSystem

/-!
# Types of a schema

The types that a schema defines, with everything planning needs to know of them. Names of
fields, parameters and members keep the order of their declarations.
-/

set_option autoImplicit false

namespace QueryPlan

open QueryPlan.Syntax

/-- Where an element of a schema was defined. -/
inductive SchemaLocation
  /-- Every schema has it. -/
  | builtin
  | source (file : String) (position : Position)
deriving DecidableEq, Repr

/-- A location as messages show it. -/
def SchemaLocation.text : SchemaLocation → String
  | builtin => "builtin"
  | source file p => file ++ ":" ++ p.render

/-- An argument of a field, or a field of an input object. -/
structure Parameter where
  name : String
  type : TypeAnnotation
  location : SchemaLocation
deriving DecidableEq

/-- A field of an object or an interface. -/
structure Field where
  name : String
  type : TypeAnnotation
  parameters : OrderedMap String Parameter
  description : Option String
  location : SchemaLocation
deriving DecidableEq

/-- A concrete type: whatever has an abstract type in an operation has one of these in the
end. -/
structure ObjectType where
  name : String
  interfaces : List String
  fields : OrderedMap String Field
  description : Option String
  location : SchemaLocation
deriving DecidableEq

structure InterfaceType where
  name : String
  interfaces : List String
  fields : OrderedMap String Field
  description : Option String
  location : SchemaLocation
deriving DecidableEq

/-- A union, with the place where each member was added. -/
structure UnionType where
  name : String
  members : OrderedMap String SchemaLocation
  description : Option String
  location : SchemaLocation
deriving DecidableEq

structure EnumType where
  name : String
  values : List String
  description : Option String
  location : SchemaLocation
deriving DecidableEq

structure InputObjectType where
  name : String
  fields : OrderedMap String Parameter
  description : Option String
  location : SchemaLocation
deriving DecidableEq

/-- A scalar type that the sources declare. -/
structure ScalarType where
  name : String
  description : Option String
  location : SchemaLocation
deriving DecidableEq

/-- The scalar types that every schema has. -/
inductive BuiltinScalar
  | boolean | float | id | int | string
deriving DecidableEq, Repr

namespace BuiltinScalar

def name : BuiltinScalar → String
  | boolean => "Boolean"
  | float => "Float"
  | id => "ID"
  | int => "Int"
  | string => "String"

/-- All of them, in the order in which a schema lists them. -/
def all : List BuiltinScalar := [boolean, float, id, int, string]

end BuiltinScalar

/-- A type of a schema. -/
inductive GraphQLType
  | builtin (scalar : BuiltinScalar)
  | enum (type : EnumType)
  | inputObject (type : InputObjectType)
  | interface (type : InterfaceType)
  | object (type : ObjectType)
  | scalar (type : ScalarType)
  | union (type : UnionType)
deriving DecidableEq

/-- The kind of a type, without its contents. -/
inductive TypeKind
  | builtin (scalar : BuiltinScalar)
  | enum | inputObject | interface | object | scalar | union
deriving DecidableEq, Repr

/-- The kind as messages name it. -/
def TypeKind.label : TypeKind → String
  | builtin s => s.name
  | enum => "Enum"
  | inputObject => "InputObject"
  | interface => "Interface"
  | object => "Object"
  | scalar => "Scalar"
  | union => "Union"

namespace GraphQLType

def name : GraphQLType → String
  | builtin s => s.name
  | enum t => t.name
  | inputObject t => t.name
  | interface t => t.name
  | object t => t.name
  | scalar t => t.name
  | union t => t.name

def kind : GraphQLType → TypeKind
  | builtin s => .builtin s
  | enum _ => .enum
  | inputObject _ => .inputObject
  | interface _ => .interface
  | object _ => .object
  | scalar _ => .scalar
  | union _ => .union

def location : GraphQLType → SchemaLocation
  | builtin _ => .builtin
  | enum t => t.location
  | inputObject t => t.location
  | interface t => t.location
  | object t => t.location
  | scalar t => t.location
  | union t => t.location

/-- The description in front of the definition. -/
def description : GraphQLType → Option String
  | builtin _ => none
  | enum t => t.description
  | inputObject t => t.description
  | interface t => t.description
  | object t => t.description
  | scalar t => t.description
  | union t => t.description

/-- Whether a value of the type has some other, concrete type. -/
def isAbstract : GraphQLType → Bool
  | interface _ | union _ => true
  | _ => false

/-- Whether a field of the type is selected with sub-selections. -/
def isComposite : GraphQLType → Bool
  | interface _ | object _ | union _ => true
  | _ => false

def asObject? : GraphQLType → Option ObjectType
  | object t => some t
  | _ => none

end GraphQLType

/-! ## Elements from their definitions -/

/-- A parameter or an input field from its definition in a file. -/
def Parameter.ofDefinition (file : String) (d : InputValueDefinition) : Parameter :=
  ⟨d.name, .ofTypeRef d.type, .source file d.position⟩

/-- Parameters by name: of equal names the last counts, at the place of the first. -/
def Parameter.collect (file : String) (ds : List InputValueDefinition) :
    OrderedMap String Parameter :=
  .ofList (ds.map fun d => (d.name, .ofDefinition file d))

/-- A field from its definition in a file. -/
def Field.ofDefinition (file : String) (d : FieldDefinition) : Field :=
  ⟨d.name, .ofTypeRef d.type, Parameter.collect file d.arguments, d.description,
    .source file d.position⟩

/-- The field that every object and interface has: the name of the concrete type. -/
def Field.typename : Field :=
  ⟨"__typename", .named "String" false, .empty, none, .builtin⟩

namespace ObjectType

/-- The field of that name. -/
def field? (t : ObjectType) (name : String) : Option Field := t.fields.get? name

/-- Whether the type declares that it implements an interface. -/
def implementsInterface (t : ObjectType) (name : String) : Bool := t.interfaces.any (· = name)

end ObjectType

end QueryPlan
