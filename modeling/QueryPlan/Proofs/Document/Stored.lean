import QueryPlan.Proofs.Document.Closed

/-!
# What an arena stores

Lowering turns syntax trees into nodes that refer to one another by ids. `Stores` is the way back:
it reads the nodes of an arena as the trees they were lowered from, whatever ids they have got and
wherever they came from. A built document stores its definitions, in their order
(`Built.stored`), so whatever is said about documents can be said about syntax trees.
-/

set_option autoImplicit false

namespace QueryPlan

open QueryPlan.Syntax

/-! ## Nodes and trees -/

/-- What a directive says, wherever it stands. -/
def DirectiveNode.content (d : DirectiveNode) : String × Arguments := (d.name, d.arguments)

def Syntax.Directive.content (d : Directive) : String × Arguments := (d.name, d.arguments)

/-- The node is that of a field with this head. -/
structure FieldNode.Stores (node : FieldNode) (head : FieldHead) : Prop where
  aliasName : node.aliasName = head.aliasName
  name : node.name = head.name
  arguments : node.arguments = head.arguments
  directives : node.directives.map (·.content) = head.directives.map (·.content)

structure SpreadNode.Stores (node : SpreadNode) (head : SpreadHead) : Prop where
  fragmentName : node.fragmentName = head.name
  directives : node.directives.map (·.content) = head.directives.map (·.content)

structure InlineFragmentNode.Stores (node : InlineFragmentNode) (head : InlineHead) : Prop where
  typeCondition : node.typeCondition = head.typeCondition
  directives : node.directives.map (·.content) = head.directives.map (·.content)

namespace SyntaxArena

/-- The nodes are those of the selections, with all that is below them. -/
inductive Stores (a : SyntaxArena) : List SelectionNode → List Syntax.Selection → Prop
  | nil : Stores a [] []
  | leaf {id node nodes head p rest} :
      a.field? id = some node → node.Stores head → node.selectionSet = none →
      Stores a nodes rest → Stores a (.field id :: nodes) (.field head p [] :: rest)
  | field {id node inner set nodes head p items rest} :
      a.field? id = some node → node.Stores head → node.selectionSet = some inner →
      items ≠ [] → a.selectionSet? inner = some set → Stores a set.selections items →
      Stores a nodes rest → Stores a (.field id :: nodes) (.field head p items :: rest)
  | spread {id node nodes head rest} :
      a.spread? id = some node → node.Stores head →
      Stores a nodes rest → Stores a (.spread id :: nodes) (.spread head :: rest)
  | inlineFragment {id node set nodes head p items rest} :
      a.inlineFragment? id = some node → node.Stores head →
      a.selectionSet? node.selectionSet = some set → Stores a set.selections items →
      Stores a nodes rest →
      Stores a (.inlineFragment id :: nodes) (.inlineFragment head p items :: rest)

variable {a b c : SyntaxArena}

/-- What is stored stays stored. -/
theorem Stores.extends_ {nodes : List SelectionNode} {items : List Syntax.Selection}
    (h : a.Stores nodes items) (hab : a.Extends b) : b.Stores nodes items := by
  induction h with
  | nil => exact .nil
  | leaf hn hhead hset _ ih => exact .leaf (hab.field hn) hhead hset ih
  | field hn hhead hinner hitems hset _ _ ih ih' =>
      exact .field (hab.field hn) hhead hinner hitems (hab.selectionSet hset) ih ih'
  | spread hn hhead _ ih => exact .spread (hab.spread hn) hhead ih
  | inlineFragment hn hhead hset _ _ ih ih' =>
      exact .inlineFragment (hab.inlineFragment hn) hhead (hab.selectionSet hset) ih ih'

/-! ## Lowering stores -/

/-- Whatever `a` resolves, `b` resolves to the same, but for the selection sets whose ids are
below `n`: those are still open, and will be closed over what comes. -/
structure Keeps (n : Nat) (a b : SyntaxArena) : Prop where
  field : ∀ {id node}, a.field? id = some node → b.field? id = some node
  spread : ∀ {id node}, a.spread? id = some node → b.spread? id = some node
  inlineFragment : ∀ {id node},
    a.inlineFragment? id = some node → b.inlineFragment? id = some node
  selectionSet : ∀ {id node},
    n ≤ id.index → a.selectionSet? id = some node → b.selectionSet? id = some node

theorem Extends.keeps (h : a.Extends b) (n : Nat) : Keeps n a b :=
  ⟨h.field, h.spread, h.inlineFragment, fun _ => h.selectionSet⟩

theorem Keeps.trans {n : Nat} (h : Keeps n a b) (h' : Keeps n b c) : Keeps n a c where
  field hn := h'.field (h.field hn)
  spread hn := h'.spread (h.spread hn)
  inlineFragment hn := h'.inlineFragment (h.inlineFragment hn)
  selectionSet hle hn := h'.selectionSet hle (h.selectionSet hle hn)

theorem Keeps.mono {n m : Nat} (h : Keeps n a b) (hle : n ≤ m) : Keeps m a b :=
  ⟨h.field, h.spread, h.inlineFragment, fun hm => h.selectionSet (hle.trans hm)⟩

/-- Closing the set leaves alone what was added since it was opened. -/
theorem keeps_enclosed {p : Position} (h : (a.openSelectionSet p).2.Extends b)
    (nodes : List SelectionNode) :
    Keeps (a.openSelectionSet p).2.nextSelectionSetId.index b
      (b.closeSelectionSet a.nextSelectionSetId nodes) := by
  refine ⟨id, id, id, fun {id node} hle hn => ?_⟩
  rw [nextSelectionSetId_openSelectionSet] at hle
  rw [selectionSet?_closeSelectionSet b nodes id h.bases_le_opened, if_neg]
  · exact hn
  · intro hid
    rw [hid] at hle
    omega

theorem map_content_lowerDirectives (a : SyntaxArena) (ds : List Directive) :
    (a.lowerDirectives ds).map (·.content) = ds.map (·.content) := by
  rw [lowerDirectives, List.map_map]
  rfl

/-- What stands below a selection is stored wherever it and the selection are kept. -/
theorem stored_enclosed {p : Position} {items : List Syntax.Selection} {nodes : List SelectionNode}
    {z : SyntaxArena} (hb : (a.openSelectionSet p).2.Extends b)
    (hitems : ∀ z, Keeps (a.openSelectionSet p).2.nextSelectionSetId.index b z →
      z.Stores nodes items)
    (hz : Keeps a.nextSelectionSetId.index (b.closeSelectionSet a.nextSelectionSetId nodes) z) :
    ∃ set, z.selectionSet? a.nextSelectionSetId = some set ∧ z.Stores set.selections items := by
  refine ⟨_, hz.selectionSet le_rfl (selectionSet?_enclosed hb nodes), hitems z ?_⟩
  refine (keeps_enclosed hb nodes).trans (hz.mono ?_)
  rw [nextSelectionSetId_openSelectionSet]
  exact Nat.le_succ _

mutual

/-- Lowering stores the selection, in every arena that keeps what was added. -/
theorem stores_lowerSelection (a : SyntaxArena) (s : Syntax.Selection) (z : SyntaxArena)
    (hz : Keeps a.nextSelectionSetId.index (a.lowerSelection s).2 z)
    {nodes : List SelectionNode} {rest : List Syntax.Selection} (hrest : z.Stores nodes rest) :
    z.Stores ((a.lowerSelection s).1 :: nodes) (s :: rest) := by
  cases s with
  | field head p items =>
      rw [lowerSelection] at hz ⊢
      by_cases hempty : items.isEmpty
      · obtain rfl := List.isEmpty_iff.1 hempty
        exact .leaf (hz.field (field?_addField_self a head none))
          ⟨rfl, rfl, rfl, a.map_content_lowerDirectives _⟩ rfl hrest
      · rw [if_neg hempty] at hz ⊢
        have hb := (grows_lowerItems (a.openSelectionSet p).2 items).extends_
        let closed := ((a.openSelectionSet p).2.lowerItems items).2.closeSelectionSet
          a.nextSelectionSetId ((a.openSelectionSet p).2.lowerItems items).1
        have hadd : closed.Extends (closed.addField head (some a.nextSelectionSetId)).2 :=
          (Extends.refl _).addField head _
        obtain ⟨set, hset, hstores⟩ := stored_enclosed hb (stores_lowerItems _ items)
          ((hadd.keeps _).trans hz)
        exact .field (hz.field (field?_addField_self _ head _))
          ⟨rfl, rfl, rfl, map_content_lowerDirectives _ _⟩ rfl
          (fun hnil => hempty (List.isEmpty_iff.2 hnil)) hset hstores hrest
  | spread head =>
      rw [lowerSelection] at hz ⊢
      exact .spread (hz.spread (spread?_addSpread_self a head))
        ⟨rfl, a.map_content_lowerDirectives _⟩ hrest
  | inlineFragment head p items =>
      rw [lowerSelection] at hz ⊢
      have hb := (grows_lowerItems (a.openSelectionSet p).2 items).extends_
      let closed := ((a.openSelectionSet p).2.lowerItems items).2.closeSelectionSet
        a.nextSelectionSetId ((a.openSelectionSet p).2.lowerItems items).1
      have hadd : closed.Extends (closed.addInlineFragment head a.nextSelectionSetId).2 :=
        (Extends.refl _).addInlineFragment head _
      obtain ⟨set, hset, hstores⟩ := stored_enclosed hb (stores_lowerItems _ items)
        ((hadd.keeps _).trans hz)
      exact .inlineFragment (hz.inlineFragment (inlineFragment?_addInlineFragment_self _ head _))
        ⟨rfl, map_content_lowerDirectives _ _⟩ hset hstores hrest

theorem stores_lowerItems (a : SyntaxArena) (items : List Syntax.Selection) (z : SyntaxArena)
    (hz : Keeps a.nextSelectionSetId.index (a.lowerItems items).2 z) :
    z.Stores (a.lowerItems items).1 items := by
  cases items with
  | nil =>
      rw [lowerItems]
      exact .nil
  | cons s rest =>
      rw [lowerItems] at hz ⊢
      -- what comes after the selection keeps it
      have hs := (grows_lowerSelection a s).extends_
      have hrest := (grows_lowerItems (a.lowerSelection s).2 rest).extends_
      exact stores_lowerSelection a s z ((hrest.keeps _).trans hz)
        (stores_lowerItems _ rest z (hz.mono hs.sets))

end

/-- A lowered selection set can be looked up, and stores its items. -/
theorem stored_lowerSelectionSet (a : SyntaxArena) (s : Syntax.SelectionSet) :
    a.Extends (a.lowerSelectionSet s).2 ∧
      ∃ set, (a.lowerSelectionSet s).2.selectionSet? (a.lowerSelectionSet s).1 = some set ∧
        (a.lowerSelectionSet s).2.Stores set.selections s.items := by
  have hgrows := grows_lowerItems (a.openSelectionSet s.position).2 s.items
  exact ⟨(hgrows.enclose _).1.extends_, stored_enclosed hgrows.extends_
    (stores_lowerItems _ s.items) ((Extends.refl _).keeps _)⟩

end SyntaxArena

/-! ## Documents -/

/-- The operations of a document, in order. -/
def Syntax.ExecutableDocument.operations (definitions : ExecutableDocument) :
    List OperationDefinition :=
  definitions.filterMap fun
    | .operation o => some o
    | .fragment _ => none

/-- The fragments of a document, in order. -/
def Syntax.ExecutableDocument.fragments (definitions : ExecutableDocument) :
    List FragmentDefinition :=
  definitions.filterMap fun
    | .operation _ => none
    | .fragment f => some f

theorem Syntax.ExecutableDocument.operations_append (ds ds' : ExecutableDocument) :
    ExecutableDocument.operations (ds ++ ds') = ds.operations ++ ds'.operations :=
  List.filterMap_append

theorem Syntax.ExecutableDocument.fragments_append (ds ds' : ExecutableDocument) :
    ExecutableDocument.fragments (ds ++ ds') = ds.fragments ++ ds'.fragments :=
  List.filterMap_append

namespace Document

variable {d e : Document}

/-- The selection set is that of the syntax. -/
def StoresSet (d : Document) (id : SelectionSetId) (s : Syntax.SelectionSet) : Prop :=
  ∃ set, d.syntaxArena.selectionSet? id = some set ∧ d.syntaxArena.Stores set.selections s.items

/-- The node is that of the fragment. -/
structure StoresFragment (d : Document) (node : FragmentNode) (f : FragmentDefinition) : Prop where
  name : node.name = f.name
  typeCondition : node.typeCondition = f.typeCondition
  selectionSet : d.StoresSet node.selectionSet f.selectionSet

/-- The node is that of the operation. -/
structure StoresOperation (d : Document) (node : OperationNode) (o : OperationDefinition) :
    Prop where
  kind : node.kind = o.kind
  name : node.name = o.name
  variableDefinitions : List.Forall₂
    (fun v w => v.name = w.name ∧ v.type = .ofTypeRef w.type ∧ v.default = w.default)
    node.variableDefinitions o.variableDefinitions
  selectionSet : d.StoresSet node.selectionSet o.selectionSet

/-- The document holds the definitions, in their order. -/
structure Stores (d : Document) (definitions : ExecutableDocument) : Prop where
  operations : List.Forall₂ d.StoresOperation d.operations definitions.operations
  fragments : List.Forall₂ d.StoresFragment d.fragments definitions.fragments

theorem StoresSet.extends_ {id : SelectionSetId} {s : Syntax.SelectionSet}
    (h : d.StoresSet id s) (hde : d.syntaxArena.Extends e.syntaxArena) : e.StoresSet id s := by
  obtain ⟨set, hset, hstores⟩ := h
  exact ⟨set, hde.selectionSet hset, hstores.extends_ hde⟩

theorem Stores.addDefinition {definitions : ExecutableDocument} (h : d.Stores definitions)
    (x : ExecutableDefinition) : (d.addDefinition x).Stores (definitions ++ [x]) := by
  -- what was stored before stays stored while the arena grows
  have hold : ∀ {e : Document}, d.syntaxArena.Extends e.syntaxArena →
      List.Forall₂ e.StoresOperation d.operations definitions.operations ∧
        List.Forall₂ e.StoresFragment d.fragments definitions.fragments := fun hde =>
    ⟨h.operations.imp fun _ _ ho => ⟨ho.kind, ho.name, ho.variableDefinitions,
        ho.selectionSet.extends_ hde⟩,
      h.fragments.imp fun _ _ hf => ⟨hf.name, hf.typeCondition, hf.selectionSet.extends_ hde⟩⟩
  cases x with
  | operation o =>
      obtain ⟨hextends, hstored⟩ := d.syntaxArena.stored_lowerSelectionSet o.selectionSet
      obtain ⟨hoperations, hfragments⟩ := hold (e := d.addOperation o) hextends
      refine ⟨?_, ?_⟩
      · rw [ExecutableDocument.operations_append]
        refine List.rel_append hoperations (.cons ⟨rfl, rfl, ?_, hstored⟩ .nil)
        exact List.forall₂_map_left_iff.2 (List.forall₂_same.2 fun v _ => ⟨rfl, rfl, rfl⟩)
      · rw [ExecutableDocument.fragments_append]
        exact (List.append_nil (definitions.fragments)).symm ▸ hfragments
  | fragment f =>
      obtain ⟨hextends, hstored⟩ := d.syntaxArena.stored_lowerSelectionSet f.selectionSet
      obtain ⟨hoperations, hfragments⟩ := hold (e := d.addFragment f) hextends
      refine ⟨?_, ?_⟩
      · rw [ExecutableDocument.operations_append]
        exact (List.append_nil (definitions.operations)).symm ▸ hoperations
      · rw [ExecutableDocument.fragments_append]
        exact List.rel_append hfragments (.cons ⟨rfl, rfl, hstored⟩ .nil)

/-- Lowering definitions stores them. -/
theorem stored_lower (file : Option String) (definitions : ExecutableDocument) :
    (lower file definitions).Stores definitions :=
  lower_induct (P := fun before d => d.Stores before) ⟨.nil, .nil⟩ fun _ _ x hd =>
    hd.addDefinition x

/-- Where operations do not conflict, the document is that of the lowered definitions. -/
theorem build_eq_ok_iff {file : Option String} {definitions : ExecutableDocument} :
    build file definitions = .ok d ↔
      d = lower file definitions ∧ conflicts (lower file definitions).operations = [] := by
  unfold build
  dsimp only
  split
  · rename_i hnone
    rw [and_iff_left hnone]
    constructor
    · intro h
      cases h
      rfl
    · rintro rfl
      rfl
  · rename_i hsome
    constructor
    · intro h
      cases h
    · rintro ⟨-, hnone⟩
      exact absurd hnone hsome

/-- A built document stores the definitions it was built from. -/
theorem stored_of_build {file : Option String} {definitions : ExecutableDocument}
    (h : build file definitions = .ok d) : d.Stores definitions := by
  obtain ⟨rfl, -⟩ := build_eq_ok_iff.1 h
  exact stored_lower file definitions

end Document

end QueryPlan
