import QueryPlan.Document.Build
import QueryPlan.Plan.Selection

/-!
# Plans

A `Plan` is a compiled operation. Its selection sets are found by the key of a selection and the
name of a concrete type, starting from the key of the root. Looking up what the plan does not
have is an error of its own kind, so that a reader can tell an unknown key from a type that
cannot arise there.
-/

set_option autoImplicit false

namespace QueryPlan

/-- A compiled operation. -/
structure Plan where
  document : Document
  operation : OperationNode
  rootType : ObjectType
  /-- How many selections there are, those in deferred fragments included. -/
  selectionCount : Nat
  /-- The syntax that compiling put in. -/
  synthetic : SyntaxArena
  /-- What was compiled for each key, in the order in which the keys were first reached. -/
  variants : OrderedMap SelectionSetId SelectionVariants

namespace Plan

/-- Why a plan has no selection set at a key for a type. -/
inductive LookupError
  /-- Nothing was compiled for the key. -/
  | unknownKey (id : SelectionSetId)
  | notPossibleType (id : SelectionSetId) (type : String)
deriving DecidableEq, Repr

/-- The text that reports an error. -/
def LookupError.message : LookupError → String
  | unknownKey id => s!"No selection set was compiled for syntax node {id.text}"
  | notPossibleType id type =>
    s!"Selection set {id.text} was never compiled for type `{type}`; that type is not a " ++
      "possible type at this position"

/-- The key of the root. -/
def root (p : Plan) : SelectionSetId := p.operation.selectionSet

/-- Resolves the ids in the plan. -/
def view (p : Plan) : SyntaxView := ⟨p.document.syntaxArena, p.synthetic⟩

/-- All that was compiled for a key. -/
def variantsAt (p : Plan) (id : SelectionSetId) : Except LookupError SelectionVariants :=
  match p.variants.get? id with
  | some v => .ok v
  | none => .error (.unknownKey id)

/-- The selection set for a key and a concrete type. -/
def selectionSet (p : Plan) (id : SelectionSetId) (type : String) :
    Except LookupError SelectionSet :=
  match p.variantsAt id with
  | .error e => .error e
  | .ok v =>
    match v.sets.get? type with
    | some s => .ok s
    | none => .error (.notPossibleType v.id type)

/-- The selection set that execution starts from. -/
def rootSelectionSet (p : Plan) : Except LookupError SelectionSet :=
  p.selectionSet p.root p.rootType.name

end Plan

end QueryPlan
