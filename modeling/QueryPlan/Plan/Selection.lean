import QueryPlan.Document.Arena
import QueryPlan.Plan.Condition
import QueryPlan.Schema.Basic

/-!
# Compiled selections

A plan gives every selection set of an operation one `SelectionSet` for each concrete type that
can arise there. All occurrences of one response key in such a set are merged into a single
selection. Fragments that are delivered later are kept apart as deferred fragments, each with a
selection set of its own for the same type.

The ids of selections are natural numbers here. For ids of 32 bits this is exact only below `2 ^ 32`
selections of one plan.
-/

set_option autoImplicit false

namespace QueryPlan

open QueryPlan.Syntax (Arguments)

/-- A selection while its selection set is being put together: it has no id, and
`selectionSet` names the sub-selections in the syntax. -/
structure SelectionDraft where
  responseKey : String
  field : Field
  /-- The concrete type it is compiled for. -/
  declaringType : ObjectType
  /-- The arguments of the first occurrence. -/
  arguments : Arguments
  selectionSet : Option SelectionSetId
  condition : IncludeCondition
  /-- Whether it was put in while planning. -/
  internal : Bool
  /-- All field nodes merged into it, in document order. -/
  nodes : List FieldId

/-- The drafts of a selection set by their response keys, in response order. -/
abbrev SelectionMap := OrderedMap String SelectionDraft

/-- A selection of a finished plan. Here `selectionSet` is the key of its sub-selections, which
no other selection has. -/
structure Selection extends SelectionDraft where
  /-- Ids are dense over the whole operation. -/
  id : Nat

namespace SelectionDraft

def isConditional (s : SelectionDraft) : Bool := s.condition.isConditional

/-- Whether the selection is part of the response for some variables. -/
def isIncluded (s : SelectionDraft) (vars : Variables) : Bool := s.condition.isIncluded vars

end SelectionDraft

/-- The syntax that a deferred fragment came from. -/
inductive DeferredSource
  | spread (fragmentName : String) (id : SpreadId)
  | inlineFragment (id : InlineFragmentId)
deriving DecidableEq, Repr

/-- A fragment that may be delivered after the selection set it appeared in. -/
structure DeferredFragment (σ : Type) where
  source : DeferredSource
  label : Option String
  /-- The variable that decides whether the fragment is deferred. -/
  ifVariable : Option String
  typeCondition : Option String
  condition : IncludeCondition
  selectionSet : σ

namespace DeferredFragment

variable {σ : Type}

/-- Whether the fragment is part of the response for some variables. -/
def isIncluded (d : DeferredFragment σ) (vars : Variables) : Bool := d.condition.isIncluded vars

/-- Whether the fragment is delivered later; otherwise it is executed in its place. -/
def isDeferred (d : DeferredFragment σ) (vars : Variables) : Bool :=
  match d.ifVariable with
  | none => true
  | some v => (vars v).getD false

end DeferredFragment

/-- The selections of one selection set for one concrete type. -/
structure SelectionSet where
  objectType : ObjectType
  /-- In the order in which their response keys were first reached. -/
  selections : List Selection
  deferred : List (DeferredFragment SelectionSet)

namespace SelectionSet

/-- Whether there are selections, and all of them are conditional. -/
def isConditional (s : SelectionSet) : Bool :=
  !s.selections.isEmpty && s.selections.all (·.isConditional)

def isEmpty (s : SelectionSet) : Bool := s.selections.isEmpty && s.deferred.isEmpty

/-- The selections that are part of the response for some variables. -/
def included (s : SelectionSet) (vars : Variables) : List Selection :=
  s.selections.filter (·.isIncluded vars)

/-- The selection with that response key. -/
def selection? (s : SelectionSet) (key : String) : Option Selection :=
  s.selections.find? (·.responseKey = key)

/-- The response keys, in order. -/
def responseKeys (s : SelectionSet) : List String := s.selections.map (·.responseKey)

end SelectionSet

/-- All that was compiled for one selection set of the syntax, by the names of the concrete
types. -/
structure SelectionVariants where
  id : SelectionSetId
  sets : OrderedMap String SelectionSet

/-- The concrete types that something was compiled for, in the order in which they came up. -/
def SelectionVariants.possibleTypes (v : SelectionVariants) : List ObjectType :=
  v.sets.values.map (·.objectType)

end QueryPlan
