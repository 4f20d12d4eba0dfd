import QueryPlan.Syntax.Position
import QueryPlan.Syntax.TypeRef
import QueryPlan.Syntax.Value

/-!
# Schema documents as syntax trees

Type definitions and their extensions, root operation types, and directive definitions.
-/

set_option autoImplicit false

namespace QueryPlan.Syntax

/-- An argument of a field, or a field of an input object. -/
structure InputValueDefinition where
  name : String
  type : TypeRef
  default : Option Value
  description : Option String
  position : Position
deriving Repr

/-- A field of an object or an interface. -/
structure FieldDefinition where
  name : String
  type : TypeRef
  arguments : List InputValueDefinition
  description : Option String
  position : Position
deriving Repr

/-- What a type definition or an extension declares, by kind of type. -/
inductive TypeBody
  | scalar
  | object (interfaces : List String) (fields : List FieldDefinition)
  | interface (interfaces : List String) (fields : List FieldDefinition)
  | union (members : List String)
  | enum (values : List String)
  | inputObject (fields : List InputValueDefinition)
deriving Repr

/-- A type definition, or an extension of a type; its position is that of the keyword for the
kind of type. -/
structure TypeDeclaration where
  name : String
  description : Option String
  body : TypeBody
  position : Position
deriving Repr

/-- A `schema` block: the root operation types it names. -/
structure RootTypes where
  query : Option String
  mutation : Option String
  subscription : Option String
  position : Position
deriving Repr

inductive SchemaDefinition
  | roots (block : RootTypes)
  | type (declaration : TypeDeclaration)
  | extension (declaration : TypeDeclaration)
  | directive (name : String)
deriving Repr

/-- A schema document: its definitions in order. -/
abbrev SchemaDocument := List SchemaDefinition

end QueryPlan.Syntax
