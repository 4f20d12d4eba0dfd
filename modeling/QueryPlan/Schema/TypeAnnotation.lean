import QueryPlan.Syntax.TypeRef

/-!
# Type annotations

The type of a field, a parameter or a variable, with nullability as a flag at every level. A
type reference marks what excludes null; an annotation says of each level whether it admits
null. Reading a reference passes the mark down to the next level, and a list starts afresh.
-/

set_option autoImplicit false

namespace QueryPlan

open QueryPlan.Syntax

/-- The annotated type of a field, a parameter or a variable. -/
inductive TypeAnnotation
  | named (name : String) (nullable : Bool)
  | list (item : TypeAnnotation) (nullable : Bool)
deriving DecidableEq, Repr

namespace TypeAnnotation

/-- The annotation of a reference, where `nullable` tells whether nothing around it has
excluded null. -/
def ofTypeRefWith : TypeRef → Bool → TypeAnnotation
  | .named name, nullable => named name nullable
  | .list item, nullable => list (ofTypeRefWith item true) nullable
  | .nonNull inner, _ => ofTypeRefWith inner false

/-- The annotation of a type reference. -/
def ofTypeRef (t : TypeRef) : TypeAnnotation := ofTypeRefWith t true

/-- The name at the bottom of all lists. -/
def innermost : TypeAnnotation → String
  | named name _ => name
  | list item _ => item.innermost

def isList : TypeAnnotation → Bool
  | named _ _ => false
  | list _ _ => true

/-- Whether null is a value of the type. -/
def nullable : TypeAnnotation → Bool
  | named _ n => n
  | list _ n => n

/-- The mark behind a type that excludes null. -/
def mark (nullable : Bool) : String := if nullable then "" else "!"

/-- The annotation in GraphQL notation. -/
def text : TypeAnnotation → String
  | named name n => name ++ mark n
  | list item n => "[" ++ item.text ++ "]" ++ mark n

end TypeAnnotation

end QueryPlan
