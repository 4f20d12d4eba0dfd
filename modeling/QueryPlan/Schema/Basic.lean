import QueryPlan.Schema.Type
import QueryPlan.Syntax.Executable

/-!
# Schemas

A schema answers which fields a type has and which concrete types a position can have.
-/

set_option autoImplicit false

namespace QueryPlan

open QueryPlan.Syntax

/-- A complete schema. -/
structure Schema where
  /-- All types by name, in the order of their definitions. -/
  types : OrderedMap String GraphQLType
  query : String
  mutation : Option String
  subscription : Option String
  /-- For each interface the names of the objects that implement it, in the order of their
  definitions. -/
  implementations : OrderedMap String (List String)
deriving DecidableEq

namespace Schema

/-- The type of that name. -/
def type? (s : Schema) (name : String) : Option GraphQLType := s.types.get? name

/-- The object type of that name. -/
def objectType? (s : Schema) (name : String) : Option ObjectType :=
  (s.type? name).bind GraphQLType.asObject?

/-- The names of the objects that implement an interface. -/
def implementationsOf (s : Schema) (interface : String) : List String :=
  (s.implementations.get? interface).getD []

/-- Whether something of type `name` can turn out to be an `object`. This decides whether a
type condition applies to a concrete type. -/
def isPossibleType (s : Schema) (name object : String) : Bool :=
  match s.type? name with
  | some (.object t) => t.name = object
  | some (.interface t) => (s.implementationsOf t.name).any (· = object)
  | some (.union t) => t.members.contains object
  | _ => false

/-- The concrete types that something of type `name` can have: an object itself, the objects
that implement an interface, the members of a union. -/
def possibleTypes (s : Schema) (name : String) : List ObjectType :=
  match s.type? name with
  | some (.object t) => [t]
  | some (.interface t) => (s.implementationsOf t.name).filterMap s.objectType?
  | some (.union t) => t.members.keys.filterMap s.objectType?
  | _ => []

/-- The name of the root type for a kind of operation. -/
def rootName? (s : Schema) : OperationKind → Option String
  | .query => some s.query
  | .mutation => s.mutation
  | .subscription => s.subscription

/-- The type that operations of a kind start from. -/
def rootType? (s : Schema) (kind : OperationKind) : Option ObjectType :=
  (s.rootName? kind).bind s.objectType?

/-- The field of an object or an interface. -/
def field? (s : Schema) (type field : String) : Option Field :=
  match s.type? type with
  | some (.object t) => t.fields.get? field
  | some (.interface t) => t.fields.get? field
  | _ => none

end Schema

end QueryPlan
