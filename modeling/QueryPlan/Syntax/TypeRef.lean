/-!
# Type references

The type expressions of the grammar: a name, a list of a type, or a type that excludes null.
-/

set_option autoImplicit false

namespace QueryPlan.Syntax

/-- A type as it is written. -/
inductive TypeRef
  | named (name : String)
  | list (item : TypeRef)
  | nonNull (inner : TypeRef)
deriving DecidableEq, Repr

namespace TypeRef

/-- A type in its written notation. -/
def text : TypeRef → String
  | named name => name
  | list item => "[" ++ item.text ++ "]"
  | nonNull inner => inner.text ++ "!"

end TypeRef

end QueryPlan.Syntax
