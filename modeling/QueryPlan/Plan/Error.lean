import QueryPlan.Document.Build
import QueryPlan.Document.Node

/-!
# Errors while compiling

Why an operation has no plan, and how that is reported.
-/

set_option autoImplicit false

namespace QueryPlan

open QueryPlan.Syntax (OperationKind)

/-- What is wrong with syntax that an optimizer puts in. -/
inductive SyntheticFault
  /-- The text does not follow the grammar. -/
  | malformed
  /-- The text is something else than one field. -/
  | notOneField
  /-- There is no field with that id. -/
  | noSuchNode
deriving DecidableEq, Repr

def SyntheticFault.message : SyntheticFault → String
  | malformed => "parse error"
  | notOneField => "expected exactly one field"
  | noSuchNode => "no field node with this id exists"

/-- Why there is no plan. -/
inductive CompileError
  | lookup (error : Document.LookupError)
  | noRootType (kind : OperationKind)
  | undefinedFragment (name : String) (location : SyntaxLocation)
  | undefinedType (name : String) (location : SyntaxLocation)
  | unknownField (field type : String) (location : SyntaxLocation)
  /-- An optimizer put a selection under a key that is not its response key. -/
  | misplacedSelection (key responseKey type : String)
  | syntheticSyntax (source : String) (fault : SyntheticFault)
  /-- Optimizers went on putting in syntax below syntax without end. -/
  | nestingTooDeep
deriving DecidableEq, Repr

/-- The text that reports an error. -/
def CompileError.message : CompileError → String
  | lookup e => e.message
  | noRootType kind => s!"The schema does not define a {kind.keyword} root operation type"
  | undefinedFragment name location =>
    s!"Fragment `{name}` is not defined (spread at {location.text})"
  | undefinedType name location =>
    s!"Type condition at {location.text} names the undefined type `{name}`"
  | unknownField field type _ => s!"Field `{field}` does not exist on type `{type}`."
  | misplacedSelection key responseKey type =>
    s!"An optimizer stored the selection `{responseKey}` under the key `{key}` while " ++
      s!"compiling a selection set for `{type}`"
  | syntheticSyntax source fault =>
    s!"Failed to lower synthetic syntax `{source}`: {fault.message}"
  | nestingTooDeep => "Selection sets nest too deep"

end QueryPlan
