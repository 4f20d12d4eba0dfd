import QueryPlan.Files.FileTree
import QueryPlan.Schema.Type
import QueryPlan.Syntax.Executable

/-!
# Errors in schemas

Why sources do not make a schema, and how that is reported.
-/

set_option autoImplicit false

namespace QueryPlan

open QueryPlan.Syntax

/-- A root operation type that a `schema` block names, with the place of the block. -/
structure RootReference where
  type : String
  location : SchemaLocation
deriving DecidableEq, Repr

/-- Why there is no schema. -/
inductive SchemaError
  | duplicateInterface (type interface : String) (location : SchemaLocation)
  | duplicateField (type field : String) (first second : SchemaLocation)
  | duplicateRoot (kind : OperationKind) (first second : RootReference)
  | duplicateType (type : String) (first second : SchemaLocation)
  | duplicateMember (union member : String) (location : SchemaLocation)
  | extensionOfUndefined (type : String) (location : SchemaLocation)
  | extensionOfOtherKind (type : String) (kind : TypeKind) (location : SchemaLocation)
  | rootNotObject (kind : OperationKind) (type : String) (typeKind : TypeKind)
      (location : SchemaLocation)
  | memberNotObject (union member : String) (kind : TypeKind) (location : SchemaLocation)
  | noQueryRoot
  | implementsNonInterface (type implemented : String) (kind : TypeKind)
      (location : SchemaLocation)
  | malformed (file : String)
  | unreadable (error : ReadError)
  | undefinedType (type referencedBy : String) (location : SchemaLocation)
deriving DecidableEq, Repr

/-- The text that reports an error. -/
def SchemaError.message : SchemaError → String
  | duplicateInterface t i _ =>
    s!"The `{t}` type declares that it implements the `{i}` interface more than once"
  | duplicateField t f _ _ => s!"Multiple fields named `{f}` were defined on the `{t}` type"
  | duplicateRoot k _ _ => s!"Multiple {k.label} root operation types were defined"
  | duplicateType t _ _ => s!"Multiple GraphQL types named `{t}` were defined"
  | duplicateMember u m _ => s!"The `{u}` union lists `{m}` as a member more than once"
  | extensionOfUndefined t _ => s!"Attempted to extend `{t}`, which is not defined"
  | extensionOfOtherKind t k _ =>
    s!"Attempted to extend `{t}` ({k.label}) with an extension of a different kind of type"
  | rootNotObject k t tk _ =>
    s!"The {k.label} root operation type `{t}` must be an object type, but it is a {tk.label}"
  | memberNotObject u m k _ =>
    s!"The `{u}` union may only contain object types, but `{m}` is a {k.label}"
  | noQueryRoot => "Attempted to build a schema that has no Query operation type defined"
  | implementsNonInterface t i k _ =>
    s!"The `{t}` type declares that it implements `{i}`, which is a {k.label} rather " ++
      "than an interface"
  | malformed file => "Error parsing schema file " ++ Text.quotedPath file
  | unreadable _ => "Failure while trying to read a schema file from disk"
  | undefinedType t r _ => s!"`{r}` references the undefined type `{t}`"

end QueryPlan
