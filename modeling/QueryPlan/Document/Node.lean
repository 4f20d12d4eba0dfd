import QueryPlan.Schema.TypeAnnotation
import QueryPlan.Syntax.Executable

/-!
# Nodes of executable syntax

Executable syntax is stored as flat nodes that refer to one another by ids, one kind of id for
each kind of node. An id is a number, so that a plan can name the syntax it came from without
holding it.

Ids are natural numbers here. For ids of 32 bits this is exact only below `2 ^ 32` nodes of each
kind, those put in while planning included.
-/

set_option autoImplicit false

namespace QueryPlan

open QueryPlan.Syntax

/-- Where some executable syntax came from. -/
inductive SyntaxLocation
  /-- A place in a document, which may be a file. -/
  | source (file : Option String) (position : Position)
  /-- Syntax that was put in while planning is in no document. -/
  | synthetic
deriving DecidableEq, Repr

namespace SyntaxLocation

/-- A location as messages show it. -/
def text : SyntaxLocation → String
  | source none p => p.render
  | source (some file) p => file ++ ":" ++ p.render
  | synthetic => "<synthetic>"

end SyntaxLocation

/-! ## Ids -/

structure FieldId where
  index : Nat
deriving DecidableEq, Repr

structure SpreadId where
  index : Nat
deriving DecidableEq, Repr

structure InlineFragmentId where
  index : Nat
deriving DecidableEq, Repr

/-- Names a selection set. A plan uses these ids as keys for what it has compiled. -/
structure SelectionSetId where
  index : Nat
deriving DecidableEq, Repr

def FieldId.text (id : FieldId) : String := s!"FieldId#{id.index}"

def SpreadId.text (id : SpreadId) : String := s!"FragmentSpreadId#{id.index}"

def InlineFragmentId.text (id : InlineFragmentId) : String := s!"InlineFragmentId#{id.index}"

def SelectionSetId.text (id : SelectionSetId) : String := s!"SelectionSetId#{id.index}"

/-! ## Nodes -/

/-- A directive on some node. -/
structure DirectiveNode where
  name : String
  arguments : Arguments
  location : SyntaxLocation
deriving Repr

structure FieldNode where
  id : FieldId
  aliasName : Option String
  name : String
  arguments : Arguments
  directives : List DirectiveNode
  /-- The sub-selections, if there are any. -/
  selectionSet : Option SelectionSetId
  location : SyntaxLocation
deriving Repr

/-- The key under which the value of a field stands in a response: its alias if it has one,
else its name. -/
def FieldNode.responseKey (node : FieldNode) : String := node.aliasName.getD node.name

structure SpreadNode where
  id : SpreadId
  fragmentName : String
  directives : List DirectiveNode
  location : SyntaxLocation
deriving Repr

structure InlineFragmentNode where
  id : InlineFragmentId
  /-- Without a type condition the fragment applies to whatever encloses it. -/
  typeCondition : Option String
  directives : List DirectiveNode
  selectionSet : SelectionSetId
  location : SyntaxLocation
deriving Repr

/-- One entry of a selection set. -/
inductive SelectionNode
  | field (id : FieldId)
  | spread (id : SpreadId)
  | inlineFragment (id : InlineFragmentId)
deriving DecidableEq, Repr

def SelectionNode.text : SelectionNode → String
  | field id => id.text
  | spread id => id.text
  | inlineFragment id => id.text

structure SelectionSetNode where
  id : SelectionSetId
  location : SyntaxLocation
  selections : List SelectionNode
deriving Repr

/-! ## Definitions -/

structure VariableNode where
  name : String
  type : TypeAnnotation
  default : Option Value
  location : SyntaxLocation
deriving Repr

structure OperationNode where
  kind : OperationKind
  name : Option String
  variableDefinitions : List VariableNode
  directives : List DirectiveNode
  selectionSet : SelectionSetId
  location : SyntaxLocation
deriving Repr

structure FragmentNode where
  name : String
  typeCondition : String
  directives : List DirectiveNode
  selectionSet : SelectionSetId
  location : SyntaxLocation
deriving Repr

end QueryPlan
