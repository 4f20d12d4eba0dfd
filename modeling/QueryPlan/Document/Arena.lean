import QueryPlan.Document.Node

/-!
# Arenas of syntax

A `SyntaxArena` stores nodes under ids that count up from a base, one count for each kind of
node. A document has an arena of its own. A plan has a second one for the syntax that is put in
while planning; its ids start where those of the document end, so an id means one node.

Lowering a selection set reserves its id before it goes on to what is inside: the id of a
selection set is smaller than the ids of the sets nested in it. Of the other nodes, an outer one
comes after those inside it.
-/

set_option autoImplicit false

namespace QueryPlan

open QueryPlan.Syntax

/-- How many ids of each kind are taken before an arena starts. -/
structure IdBases where
  fields : Nat
  spreads : Nat
  inlineFragments : Nat
  selectionSets : Nat
deriving DecidableEq, Repr

/-- What the nodes of an arena were lowered from. -/
inductive ArenaOrigin
  | document (file : Option String)
  | synthetic
deriving DecidableEq, Repr

/-- Nodes addressed by id. -/
structure SyntaxArena where
  bases : IdBases
  origin : ArenaOrigin
  fields : Array FieldNode
  spreads : Array SpreadNode
  inlineFragments : Array InlineFragmentNode
  selectionSets : Array SelectionSetNode
deriving Repr

namespace SyntaxArena

/-- The empty arena of a document. -/
def forDocument (file : Option String) : SyntaxArena :=
  ⟨⟨0, 0, 0, 0⟩, .document file, #[], #[], #[], #[]⟩

/-- The empty arena whose ids follow on all ids of another one. -/
def syntheticAfter (a : SyntaxArena) : SyntaxArena :=
  ⟨⟨a.bases.fields + a.fields.size, a.bases.spreads + a.spreads.size,
      a.bases.inlineFragments + a.inlineFragments.size,
      a.bases.selectionSets + a.selectionSets.size⟩,
    .synthetic, #[], #[], #[], #[]⟩

/-! ## Looking up nodes -/

/-- The item at an index that counts from a base. -/
def atIndex? {α : Type} (base : Nat) (items : Array α) (index : Nat) : Option α :=
  if base ≤ index then items[index - base]? else none

def field? (a : SyntaxArena) (id : FieldId) : Option FieldNode :=
  atIndex? a.bases.fields a.fields id.index

def spread? (a : SyntaxArena) (id : SpreadId) : Option SpreadNode :=
  atIndex? a.bases.spreads a.spreads id.index

def inlineFragment? (a : SyntaxArena) (id : InlineFragmentId) : Option InlineFragmentNode :=
  atIndex? a.bases.inlineFragments a.inlineFragments id.index

def selectionSet? (a : SyntaxArena) (id : SelectionSetId) : Option SelectionSetNode :=
  atIndex? a.bases.selectionSets a.selectionSets id.index

/-! ## Adding nodes -/

/-- The location of a position in what is being lowered. -/
def locate (a : SyntaxArena) (p : Position) : SyntaxLocation :=
  match a.origin with
  | .document file => .source file p
  | .synthetic => .synthetic

def lowerDirectives (a : SyntaxArena) (directives : List Directive) : List DirectiveNode :=
  directives.map fun d => ⟨d.name, d.arguments, a.locate d.position⟩

def nextFieldId (a : SyntaxArena) : FieldId := ⟨a.bases.fields + a.fields.size⟩

def nextSpreadId (a : SyntaxArena) : SpreadId := ⟨a.bases.spreads + a.spreads.size⟩

def nextInlineFragmentId (a : SyntaxArena) : InlineFragmentId :=
  ⟨a.bases.inlineFragments + a.inlineFragments.size⟩

def nextSelectionSetId (a : SyntaxArena) : SelectionSetId :=
  ⟨a.bases.selectionSets + a.selectionSets.size⟩

/-- Adds a field whose sub-selections are lowered already. -/
def addField (a : SyntaxArena) (head : FieldHead) (selectionSet : Option SelectionSetId) :
    FieldId × SyntaxArena :=
  let id := a.nextFieldId
  let node : FieldNode :=
    ⟨id, head.aliasName, head.name, head.arguments, a.lowerDirectives head.directives,
      selectionSet, a.locate head.position⟩
  (id, { a with fields := a.fields.push node })

def addSpread (a : SyntaxArena) (head : SpreadHead) : SpreadId × SyntaxArena :=
  let id := a.nextSpreadId
  let node : SpreadNode :=
    ⟨id, head.name, a.lowerDirectives head.directives, a.locate head.position⟩
  (id, { a with spreads := a.spreads.push node })

/-- Adds an inline fragment whose selections are lowered already. -/
def addInlineFragment (a : SyntaxArena) (head : InlineHead) (selectionSet : SelectionSetId) :
    InlineFragmentId × SyntaxArena :=
  let id := a.nextInlineFragmentId
  let node : InlineFragmentNode :=
    ⟨id, head.typeCondition, a.lowerDirectives head.directives, selectionSet,
      a.locate head.position⟩
  (id, { a with inlineFragments := a.inlineFragments.push node })

/-- Reserves the id of a selection set that opens at a position. -/
def openSelectionSet (a : SyntaxArena) (p : Position) : SelectionSetId × SyntaxArena :=
  let id := a.nextSelectionSetId
  (id, { a with selectionSets := a.selectionSets.push ⟨id, a.locate p, []⟩ })

/-- Fills in the selections of a reserved selection set. -/
def closeSelectionSet (a : SyntaxArena) (id : SelectionSetId) (selections : List SelectionNode) :
    SyntaxArena :=
  { a with
    selectionSets := a.selectionSets.modify (id.index - a.bases.selectionSets)
      fun node => { node with selections := selections } }

/-- Adds a selection set with the selections of another one under a new id. -/
def copySelectionSet (a : SyntaxArena) (node : SelectionSetNode) : SelectionSetId × SyntaxArena :=
  let id := a.nextSelectionSetId
  (id, { a with selectionSets := a.selectionSets.push { node with id := id } })

/-! ## Lowering -/

mutual

/-- Adds a selection with all that is below it. -/
def lowerSelection (a : SyntaxArena) : Selection → SelectionNode × SyntaxArena
  | .field head p items =>
    if items.isEmpty then
      let (id, a) := a.addField head none
      (.field id, a)
    else
      let (set, a) := a.openSelectionSet p
      let (nodes, a) := lowerItems a items
      let (id, a) := (a.closeSelectionSet set nodes).addField head (some set)
      (.field id, a)
  | .spread head =>
    let (id, a) := a.addSpread head
    (.spread id, a)
  | .inlineFragment head p items =>
    let (set, a) := a.openSelectionSet p
    let (nodes, a) := lowerItems a items
    let (id, a) := (a.closeSelectionSet set nodes).addInlineFragment head set
    (.inlineFragment id, a)

/-- Adds selections one after another. -/
def lowerItems (a : SyntaxArena) : List Selection → List SelectionNode × SyntaxArena
  | [] => ([], a)
  | s :: rest =>
    let (node, a) := lowerSelection a s
    let (nodes, a) := lowerItems a rest
    (node :: nodes, a)

end

/-- Adds a selection set with all that is below it. -/
def lowerSelectionSet (a : SyntaxArena) (s : SelectionSet) : SelectionSetId × SyntaxArena :=
  let (id, a) := a.openSelectionSet s.position
  let (nodes, a) := a.lowerItems s.items
  (id, a.closeSelectionSet id nodes)

end SyntaxArena

/-! ## Both arenas of a plan -/

/-- Resolves ids in the arena of a document first and in a synthetic one after it. -/
structure SyntaxView where
  document : SyntaxArena
  synthetic : SyntaxArena
deriving Repr

namespace SyntaxView

def field? (v : SyntaxView) (id : FieldId) : Option FieldNode :=
  v.document.field? id <|> v.synthetic.field? id

def spread? (v : SyntaxView) (id : SpreadId) : Option SpreadNode :=
  v.document.spread? id <|> v.synthetic.spread? id

def inlineFragment? (v : SyntaxView) (id : InlineFragmentId) : Option InlineFragmentNode :=
  v.document.inlineFragment? id <|> v.synthetic.inlineFragment? id

def selectionSet? (v : SyntaxView) (id : SelectionSetId) : Option SelectionSetNode :=
  v.document.selectionSet? id <|> v.synthetic.selectionSet? id

end SyntaxView

end QueryPlan
