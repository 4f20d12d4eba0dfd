import QueryPlan.Syntax.Position
import QueryPlan.Syntax.TypeRef
import QueryPlan.Syntax.Value

/-!
# Executable documents as syntax trees

Operations and fragments with their selection sets. A field without sub-selections has an empty
list of items; a selection set that is written out always holds an item.
-/

set_option autoImplicit false

namespace QueryPlan.Syntax

/-- A directive applied to some syntax; its position is that of its `@` sign. -/
structure Directive where
  name : String
  arguments : Arguments
  position : Position
deriving Repr

/-- A field without its sub-selections; its position is that of its first name. -/
structure FieldHead where
  aliasName : Option String
  name : String
  arguments : Arguments
  directives : List Directive
  position : Position
deriving Repr

/-- A spread of a named fragment; its position is that of the name. -/
structure SpreadHead where
  name : String
  directives : List Directive
  position : Position
deriving Repr

/-- An inline fragment without its selections; its position is that of the first token after
the dots. -/
structure InlineHead where
  typeCondition : Option String
  directives : List Directive
  position : Position
deriving Repr

/-- One entry of a selection set. `setPosition` is where the selection set below it opens. -/
inductive Selection
  | field (head : FieldHead) (setPosition : Position) (items : List Selection)
  | spread (head : SpreadHead)
  | inlineFragment (head : InlineHead) (setPosition : Position) (items : List Selection)
deriving Repr

/-- Selections in braces. -/
structure SelectionSet where
  position : Position
  items : List Selection
deriving Repr

/-- The three kinds of operation, each run against a root type of its own. -/
inductive OperationKind
  | query
  | mutation
  | subscription
deriving DecidableEq, Repr

namespace OperationKind

/-- The word that begins an operation of this kind. -/
def keyword : OperationKind → String
  | query => "query"
  | mutation => "mutation"
  | subscription => "subscription"

/-- The root type of a schema that does not name one. -/
def defaultRootName : OperationKind → String
  | query => "Query"
  | mutation => "Mutation"
  | subscription => "Subscription"

/-- The kind as messages about schemas name it. -/
def label : OperationKind → String
  | query => "Query"
  | mutation => "Mutation"
  | subscription => "Subscription"

end OperationKind

/-- A variable of an operation; its position is that of the `$` sign. -/
structure VariableDefinition where
  name : String
  type : TypeRef
  default : Option Value
  position : Position
deriving Repr

/-- An operation; its position is that of its keyword, or of its brace when it is only a
selection set. -/
structure OperationDefinition where
  kind : OperationKind
  name : Option String
  variableDefinitions : List VariableDefinition
  directives : List Directive
  selectionSet : SelectionSet
  position : Position
  /-- Whether the operation is nothing but a selection set. -/
  shorthand : Bool
deriving Repr

/-- A named fragment; its position is that of its keyword. -/
structure FragmentDefinition where
  name : String
  typeCondition : String
  directives : List Directive
  selectionSet : SelectionSet
  position : Position
deriving Repr

inductive ExecutableDefinition
  | operation (definition : OperationDefinition)
  | fragment (definition : FragmentDefinition)
deriving Repr

/-- An executable document: its definitions in order. -/
abbrev ExecutableDocument := List ExecutableDefinition

end QueryPlan.Syntax
