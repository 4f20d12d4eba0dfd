import Mathlib
import QueryPlan.Proofs.Document.References
import QueryPlan.Proofs.Document.Stored
import QueryPlan.Proofs.Syntax.Settled

/-!
# Raising what was lowered

`raise?` follows the ids of an arena from a selection set downwards and puts a syntax tree
together again. On the arena of a document it always comes to an end, and what it gives back is
the selection set of the source text, with all names, arguments and positions
(`raised_of_source`). The sets stand in the arena in the order in which the text opens them, so
what is said about all of them is said about two lists: the sets by id, and the sets of the tree
from the outside in.
-/

set_option autoImplicit false

namespace QueryPlan

open QueryPlan.Syntax

/-! ## Raising -/

/-- The place in the source text. -/
def SyntaxLocation.position? : SyntaxLocation → Option Position
  | source _ p => some p
  | synthetic => none

def DirectiveNode.raise? (d : DirectiveNode) : Option Directive := do
  let position ← d.location.position?
  return ⟨d.name, d.arguments, position⟩

def FieldNode.head? (node : FieldNode) : Option FieldHead := do
  let directives ← node.directives.mapM (·.raise?)
  let position ← node.location.position?
  return ⟨node.aliasName, node.name, node.arguments, directives, position⟩

def SpreadNode.head? (node : SpreadNode) : Option SpreadHead := do
  let directives ← node.directives.mapM (·.raise?)
  let position ← node.location.position?
  return ⟨node.fragmentName, directives, position⟩

def InlineFragmentNode.head? (node : InlineFragmentNode) : Option InlineHead := do
  let directives ← node.directives.mapM (·.raise?)
  let position ← node.location.position?
  return ⟨node.typeCondition, directives, position⟩

namespace SyntaxArena

/-- The selection that a node stands for, given what selection sets stand for. A field without
a selection set has no sub-selections. -/
def raiseSelection? (a : SyntaxArena) (below : SelectionSetId → Option Syntax.SelectionSet) :
    SelectionNode → Option Syntax.Selection
  | .field id => do
    let node ← a.field? id
    let head ← node.head?
    match node.selectionSet with
    | none => return .field head head.position []
    | some inner =>
      let set ← below inner
      return .field head set.position set.items
  | .spread id => do
    let node ← a.spread? id
    let head ← node.head?
    return .spread head
  | .inlineFragment id => do
    let node ← a.inlineFragment? id
    let head ← node.head?
    let set ← below node.selectionSet
    return .inlineFragment head set.position set.items

/-- The selection set that an id stands for, where sets nest less than `fuel` deep. -/
def raise? (a : SyntaxArena) : Nat → SelectionSetId → Option Syntax.SelectionSet
  | 0, _ => none
  | fuel + 1, id => do
    let node ← a.selectionSet? id
    let items ← node.selections.mapM (a.raiseSelection? (a.raise? fuel))
    let position ← node.location.position?
    return ⟨position, items⟩

/-- The selections that a list of nodes stands for. -/
def raiseItems? (a : SyntaxArena) (fuel : Nat) (nodes : List SelectionNode) :
    Option (List Syntax.Selection) :=
  nodes.mapM (a.raiseSelection? (a.raise? fuel))

/-- The selection sets that stand under `count` ids, counting from `first`. -/
def raisedSets (a : SyntaxArena) (fuel first count : Nat) : List (Option Syntax.SelectionSet) :=
  (List.range' first count).map fun index => a.raise? fuel ⟨index⟩

end SyntaxArena

/-! ## The selection sets of a tree -/

mutual

/-- The selection sets in a selection, from the outside in. -/
def Syntax.Selection.sets : Syntax.Selection → List Syntax.SelectionSet
  | .field _ p items => if items.isEmpty then [] else ⟨p, items⟩ :: setsOf items
  | .spread _ => []
  | .inlineFragment _ p items => ⟨p, items⟩ :: setsOf items

def Syntax.Selection.setsOf : List Syntax.Selection → List Syntax.SelectionSet
  | [] => []
  | s :: rest => s.sets ++ setsOf rest

end

/-- A selection set and those in it. -/
def Syntax.SelectionSet.sets (s : Syntax.SelectionSet) : List Syntax.SelectionSet :=
  s :: Syntax.Selection.setsOf s.items

/-- All selection sets of a document, in the order in which they open. -/
def Syntax.ExecutableDocument.sets (definitions : ExecutableDocument) :
    List Syntax.SelectionSet :=
  definitions.flatMap fun x => x.selectionSet.sets

/-! ## What lowering keeps of a node -/

namespace SyntaxArena

variable {a b c z : SyntaxArena} {file : Option String}

theorem raise?_lowerDirectives (h : a.origin = .document file) (ds : List Directive) :
    (a.lowerDirectives ds).mapM (·.raise?) = some ds := by
  induction ds with
  | nil => rfl
  | cons d ds ih =>
      have hd : (⟨d.name, d.arguments, a.locate d.position⟩ : DirectiveNode).raise? = some d := by
        simp [DirectiveNode.raise?, locate, h, SyntaxLocation.position?]
      rw [lowerDirectives, List.map_cons, List.mapM_cons, hd]
      rw [lowerDirectives] at ih
      rw [ih]
      rfl

/-- The node that is added for a field has the head of the field. -/
theorem head?_fieldNode (h : a.origin = .document file) (id : FieldId) (head : FieldHead)
    (set : Option SelectionSetId) :
    FieldNode.head? ⟨id, head.aliasName, head.name, head.arguments,
      a.lowerDirectives head.directives, set, a.locate head.position⟩ = some head := by
  simp [FieldNode.head?, raise?_lowerDirectives h, locate, h, SyntaxLocation.position?]

theorem head?_spreadNode (h : a.origin = .document file) (id : SpreadId) (head : SpreadHead) :
    SpreadNode.head? ⟨id, head.name, a.lowerDirectives head.directives,
      a.locate head.position⟩ = some head := by
  simp [SpreadNode.head?, raise?_lowerDirectives h, locate, h, SyntaxLocation.position?]

theorem head?_inlineFragmentNode (h : a.origin = .document file) (id : InlineFragmentId)
    (head : InlineHead) (set : SelectionSetId) :
    InlineFragmentNode.head? ⟨id, head.typeCondition, a.lowerDirectives head.directives, set,
      a.locate head.position⟩ = some head := by
  simp [InlineFragmentNode.head?, raise?_lowerDirectives h, locate, h, SyntaxLocation.position?]

/-! ## What was lowered can be raised -/

theorem raiseItems?_append {fuel : Nat} {nodes nodes' : List SelectionNode}
    {items items' : List Syntax.Selection} (h : a.raiseItems? fuel nodes = some items)
    (h' : a.raiseItems? fuel nodes' = some items') :
    a.raiseItems? fuel (nodes ++ nodes') = some (items ++ items') := by
  rw [raiseItems?] at h h'
  rw [raiseItems?, List.mapM_append, h, h']
  rfl

theorem raisedSets_append (a : SyntaxArena) (fuel first count count' : Nat) :
    a.raisedSets fuel first (count + count') =
      a.raisedSets fuel first count ++ a.raisedSets fuel (first + count) count' := by
  rw [raisedSets, ← List.range'_append_1, List.map_append]
  rfl

/-- From `a` to `b` the selections `items` were lowered to `nodes`, and with them the sets
`sets`. They are raised again in every arena `z` that keeps them. -/
structure Raises (a : SyntaxArena) (nodes : List SelectionNode) (items : List Syntax.Selection)
    (sets : List Syntax.SelectionSet) (b : SyntaxArena) : Prop where
  extends_ : a.Extends b
  next : b.nextSelectionSetId.index = a.nextSelectionSetId.index + sets.length
  items : ∀ z fuel, Keeps a.nextSelectionSetId.index b z → sets.length ≤ fuel →
    z.raiseItems? fuel nodes = some items
  sets : ∀ z fuel, Keeps a.nextSelectionSetId.index b z → sets.length ≤ fuel →
    z.raisedSets fuel a.nextSelectionSetId.index sets.length = sets.map some

namespace Raises

variable {nodes nodes' : List SelectionNode} {items items' : List Syntax.Selection}
  {sets sets' : List Syntax.SelectionSet} {p : Position}

theorem refl (a : SyntaxArena) : a.Raises [] [] [] a :=
  ⟨Extends.refl a, rfl, fun _ _ _ _ => rfl, fun _ _ _ _ => rfl⟩

theorem append (h : a.Raises nodes items sets b) (h' : b.Raises nodes' items' sets' c) :
    a.Raises (nodes ++ nodes') (items ++ items') (sets ++ sets') c where
  extends_ := h.extends_.trans h'.extends_
  next := by
    rw [h'.next, h.next, List.length_append, Nat.add_assoc]
  items z fuel hz hfuel := by
    rw [List.length_append] at hfuel
    have hfirst := h.items z fuel ((h'.extends_.keeps _).trans hz) (by omega)
    have hsecond := h'.items z fuel (hz.mono h.extends_.sets) (by omega)
    exact raiseItems?_append hfirst hsecond
  sets z fuel hz hfuel := by
    rw [List.length_append] at hfuel
    have hfirst := h.sets z fuel ((h'.extends_.keeps _).trans hz) (by omega)
    have hsecond := h'.sets z fuel (hz.mono h.extends_.sets) (by omega)
    -- the ids of the second part count on from those of the first
    rw [h.next] at hsecond
    calc z.raisedSets fuel a.nextSelectionSetId.index (sets ++ sets').length
        = z.raisedSets fuel a.nextSelectionSetId.index sets.length ++
            z.raisedSets fuel (a.nextSelectionSetId.index + sets.length) sets'.length := by
          rw [List.length_append, raisedSets_append]
      _ = sets.map some ++ sets'.map some := by rw [hfirst, hsecond]
      _ = (sets ++ sets').map some := List.map_append.symm

/-- The first of the sets, under the first of the ids. -/
theorem first {set : Syntax.SelectionSet} (h : a.Raises nodes items (set :: sets) b)
    {fuel : Nat} (hz : Keeps a.nextSelectionSetId.index b z)
    (hfuel : (set :: sets).length ≤ fuel) : z.raise? fuel a.nextSelectionSetId = some set := by
  have hall := h.sets z fuel hz hfuel
  rw [raisedSets, List.length_cons, List.range'_succ, List.map_cons, List.map_cons] at hall
  exact (List.cons.inj hall).1

/-- A set that is opened, and closed over what was lowered since, comes before the sets in
it. -/
theorem enclose (ho : a.origin = .document file)
    (h : (a.openSelectionSet p).2.Raises nodes items sets b) :
    a.Raises [] [] (⟨p, items⟩ :: sets) (b.closeSelectionSet a.nextSelectionSetId nodes) where
  extends_ := (((Extends.refl a).openSelectionSet p).trans h.extends_).closeSelectionSet le_rfl _
  next := by
    have hnext : (b.closeSelectionSet a.nextSelectionSetId nodes).nextSelectionSetId
        = b.nextSelectionSetId := by
      simp [nextSelectionSetId, closeSelectionSet]
    rw [hnext, h.next, nextSelectionSetId_openSelectionSet, List.length_cons]
    omega
  items _ _ _ _ := rfl
  sets z fuel hz hfuel := by
    rw [List.length_cons] at hfuel
    have hopened := nextSelectionSetId_openSelectionSet a p
    have hinner : Keeps (a.openSelectionSet p).2.nextSelectionSetId.index b z :=
      (keeps_enclosed h.extends_ nodes).trans (hz.mono (by omega))
    have hbelow := h.sets z fuel hinner (by omega)
    have hset := hz.selectionSet le_rfl (selectionSet?_enclosed h.extends_ nodes)
    obtain ⟨fuel, rfl⟩ : ∃ n, fuel = n + 1 := ⟨fuel - 1, by omega⟩
    -- the set itself takes one unit of fuel more than what is in it
    have hitems := h.items z fuel hinner (by omega)
    have hroot : z.raise? (fuel + 1) a.nextSelectionSetId = some ⟨p, items⟩ := by
      rw [raiseItems?] at hitems
      rw [raise?, hset]
      simp [hitems, locate, ho, SyntaxLocation.position?]
    rw [hopened, raisedSets] at hbelow
    rw [raisedSets, List.length_cons, List.range'_succ, List.map_cons, List.map_cons, hbelow]
    exact congrArg (· :: _) hroot

/-- A field without a set. -/
theorem leaf (ho : a.origin = .document file) (head : FieldHead) :
    a.Raises [.field (a.addField head none).1] [.field head head.position []] []
      (a.addField head none).2 where
  extends_ := (Extends.refl a).addField head none
  next := rfl
  items z fuel hz _ := by
    have hnode := hz.field (field?_addField_self a head none)
    simp [raiseItems?, raiseSelection?, hnode, head?_fieldNode ho]
  sets _ _ _ _ := rfl

theorem field (ho : b.origin = .document file) (h : a.Raises [] [] (⟨p, items⟩ :: sets) b)
    (head : FieldHead) :
    a.Raises [.field (b.addField head (some a.nextSelectionSetId)).1] [.field head p items]
      (⟨p, items⟩ :: sets) (b.addField head (some a.nextSelectionSetId)).2 where
  extends_ := h.extends_.addField head _
  next := h.next
  items z fuel hz hfuel := by
    have hnode := hz.field (field?_addField_self b head (some a.nextSelectionSetId))
    have hkept := (((Extends.refl b).addField head (some a.nextSelectionSetId)).keeps
      a.nextSelectionSetId.index).trans hz
    have hset := h.first hkept hfuel
    simp [raiseItems?, raiseSelection?, hnode, head?_fieldNode ho, hset]
  sets z fuel hz hfuel :=
    h.sets z fuel ((((Extends.refl b).addField head _).keeps _).trans hz) hfuel

theorem spread (ho : a.origin = .document file) (head : SpreadHead) :
    a.Raises [.spread (a.addSpread head).1] [.spread head] [] (a.addSpread head).2 where
  extends_ := (Extends.refl a).addSpread head
  next := rfl
  items z fuel hz _ := by
    have hnode := hz.spread (spread?_addSpread_self a head)
    simp [raiseItems?, raiseSelection?, hnode, head?_spreadNode ho]
  sets _ _ _ _ := rfl

theorem inlineFragment (ho : b.origin = .document file)
    (h : a.Raises [] [] (⟨p, items⟩ :: sets) b) (head : InlineHead) :
    a.Raises [.inlineFragment (b.addInlineFragment head a.nextSelectionSetId).1]
      [.inlineFragment head p items] (⟨p, items⟩ :: sets)
      (b.addInlineFragment head a.nextSelectionSetId).2 where
  extends_ := h.extends_.addInlineFragment head _
  next := h.next
  items z fuel hz hfuel := by
    have hnode := hz.inlineFragment
      (inlineFragment?_addInlineFragment_self b head a.nextSelectionSetId)
    have hkept := (((Extends.refl b).addInlineFragment head a.nextSelectionSetId).keeps
      a.nextSelectionSetId.index).trans hz
    have hset := h.first hkept hfuel
    simp [raiseItems?, raiseSelection?, hnode, head?_inlineFragmentNode ho, hset]
  sets z fuel hz hfuel :=
    h.sets z fuel ((((Extends.refl b).addInlineFragment head _).keeps _).trans hz) hfuel

end Raises

mutual

/-- A settled selection is raised again, one case for each form of selection. -/
theorem raises_lowerSelection (a : SyntaxArena) (ho : a.origin = .document file)
    (s : Syntax.Selection) (hs : s.Settled) :
    a.Raises [(a.lowerSelection s).1] [s] s.sets (a.lowerSelection s).2 := by
  cases s with
  | field head p items =>
      rw [lowerSelection, Syntax.Selection.sets]
      by_cases hempty : items.isEmpty
      · rw [if_pos hempty, if_pos hempty]
        obtain rfl := List.isEmpty_iff.1 hempty
        cases hs with
        | leaf => exact Raises.leaf ho head
        | field hne _ => exact absurd rfl hne
      · rw [if_neg hempty, if_neg hempty]
        have hitems : ∀ s ∈ items, s.Settled := by
          cases hs with
          | leaf => exact absurd rfl hempty
          | field _ hitems => exact hitems
        have hbelow := raises_lowerItems (a.openSelectionSet p).2 ho items hitems
        have horigin := (accounts_lowerItems (a.openSelectionSet p).2 items).enclose.origin
        exact Raises.field (horigin.trans ho) (hbelow.enclose ho) head
  | spread head =>
      rw [lowerSelection, Syntax.Selection.sets]
      exact Raises.spread ho head
  | inlineFragment head p items =>
      rw [lowerSelection, Syntax.Selection.sets]
      have hitems : ∀ s ∈ items, s.Settled := by
        cases hs with
        | inlineFragment hitems => exact hitems
      have hbelow := raises_lowerItems (a.openSelectionSet p).2 ho items hitems
      have horigin := (accounts_lowerItems (a.openSelectionSet p).2 items).enclose.origin
      exact Raises.inlineFragment (horigin.trans ho) (hbelow.enclose ho) head

theorem raises_lowerItems (a : SyntaxArena) (ho : a.origin = .document file)
    (items : List Syntax.Selection) (hitems : ∀ s ∈ items, s.Settled) :
    a.Raises (a.lowerItems items).1 items (Syntax.Selection.setsOf items)
      (a.lowerItems items).2 := by
  cases items with
  | nil =>
      rw [lowerItems, Syntax.Selection.setsOf]
      exact Raises.refl a
  | cons s rest =>
      rw [lowerItems, Syntax.Selection.setsOf]
      have hs := raises_lowerSelection a ho s (hitems s List.mem_cons_self)
      have horigin := (accounts_lowerSelection a s).origin
      have hrest := raises_lowerItems (a.lowerSelection s).2 (horigin.trans ho) rest
        fun s hm => hitems s (List.mem_cons_of_mem _ hm)
      exact hs.append hrest

end

theorem raises_lowerSelectionSet (ho : a.origin = .document file) {s : Syntax.SelectionSet}
    (hs : s.Settled) : a.Raises [] [] s.sets (a.lowerSelectionSet s).2 :=
  (raises_lowerItems (a.openSelectionSet s.position).2 ho s.items hs).enclose ho

end SyntaxArena

/-! ## Documents -/

namespace Document

/-- The selection sets of the definitions: one for each operation and each fragment. -/
def roots (d : Document) : List SelectionSetId :=
  d.operations.map (·.selectionSet) ++ d.fragments.map (·.selectionSet)

/-- Raising gives back the selection sets of the definitions: those of the operations, those of
the fragments, and all there are, by id. -/
structure RaisesTo (d : Document) (fuel : Nat) (definitions : ExecutableDocument) : Prop where
  operations : d.operations.map (fun o => d.syntaxArena.raise? fuel o.selectionSet) =
    definitions.operations.map fun o => some o.selectionSet
  fragments : d.fragments.map (fun f => d.syntaxArena.raise? fuel f.selectionSet) =
    definitions.fragments.map fun f => some f.selectionSet
  sets : d.syntaxArena.setIds.map (d.syntaxArena.raise? fuel) = definitions.sets.map some

/-- Every id means the node that carries it, and whatever a document holds is referred to once:
a selection by the set that lists it, a set by what it stands in or by its definition. -/
structure Referred (d : Document) : Prop where
  field_id : ∀ node ∈ d.syntaxArena.fields, d.syntaxArena.field? node.id = some node
  spread_id : ∀ node ∈ d.syntaxArena.spreads, d.syntaxArena.spread? node.id = some node
  inlineFragment_id : ∀ node ∈ d.syntaxArena.inlineFragments,
    d.syntaxArena.inlineFragment? node.id = some node
  selectionSet_id : ∀ node ∈ d.syntaxArena.selectionSets,
    d.syntaxArena.selectionSet? node.id = some node
  listed_resolves : ∀ sel ∈ d.syntaxArena.listed, d.syntaxArena.Resolves sel
  enclosed_resolves : ∀ id ∈ d.roots ++ d.syntaxArena.enclosed,
    ∃ set, d.syntaxArena.selectionSet? id = some set
  listed_once : ∀ sel ∈ d.syntaxArena.selections, d.syntaxArena.listed.count sel = 1
  enclosed_once : ∀ id ∈ d.syntaxArena.setIds, (d.roots ++ d.syntaxArena.enclosed).count id = 1
  descends : ∀ set ∈ d.syntaxArena.selectionSets, ∀ sel ∈ set.selections, ∀ inner,
    d.syntaxArena.innerSet? sel = some inner → set.id.index < inner.index

variable {d : Document} {file : Option String} {definitions : ExecutableDocument}

/-! ### References -/

/-- Only the sets of the definitions are not in any node. -/
theorem accounts_lower (file : Option String) (definitions : ExecutableDocument) :
    (SyntaxArena.forDocument file).Accounts [] (lower file definitions).roots
      (lower file definitions).syntaxArena := by
  refine lower_induct
    (P := fun _ d => (SyntaxArena.forDocument file).Accounts [] d.roots d.syntaxArena)
    (SyntaxArena.Accounts.refl _) fun _ d x hd => ?_
  cases x with
  | operation o =>
      have hset := d.syntaxArena.accounts_lowerSelectionSet o.selectionSet
      refine (hd.append hset).perm ?_
      simp only [roots, addDefinition, addOperation, List.map_append, List.map_cons,
        List.map_nil, List.append_assoc]
      exact List.Perm.append_left _ List.perm_append_comm
  | fragment f =>
      have hset := d.syntaxArena.accounts_lowerSelectionSet f.selectionSet
      refine (hd.append hset).perm (List.Perm.of_eq ?_)
      simp only [roots, addDefinition, addFragment, List.map_append, List.map_cons,
        List.map_nil, List.append_assoc]

/-- A list with the counts of a list without duplicates holds each of its items once. -/
theorem count_eq_one_of_count_eq {α : Type} [DecidableEq α] {xs ys : List α}
    (hcount : ∀ x, xs.count x = ys.count x) (hnodup : ys.Nodup) {x : α} (hx : x ∈ ys) :
    xs.count x = 1 := by
  rw [hcount x]
  exact List.count_eq_one_of_mem hnodup hx

theorem count_enclosed_lower (file : Option String) (definitions : ExecutableDocument)
    (id : SelectionSetId) :
    ((lower file definitions).roots ++ (lower file definitions).syntaxArena.enclosed).count id =
      (lower file definitions).syntaxArena.setIds.count id := by
  have h := (accounts_lower file definitions).enclosed id
  have hnone : (SyntaxArena.forDocument file).setIds.count id = 0 := rfl
  have hnone' : (SyntaxArena.forDocument file).enclosed.count id = 0 := rfl
  rw [hnone, hnone'] at h
  rw [List.count_append]
  omega

theorem referred_lower (file : Option String) (definitions : ExecutableDocument) :
    (lower file definitions).Referred := by
  have haccounts := accounts_lower file definitions
  have hclosed := closed_lower file definitions
  have hnumbered := haccounts.numbered (SyntaxArena.Numbered.forDocument file)
  have hlisted : ∀ x, (lower file definitions).syntaxArena.listed.count x =
      (lower file definitions).syntaxArena.selections.count x := by
    intro x
    have h := haccounts.listed x
    have hnone : (SyntaxArena.forDocument file).selections.count x = 0 := rfl
    have hnone' : (SyntaxArena.forDocument file).listed.count x = 0 := rfl
    rw [hnone, hnone', List.count_nil] at h
    omega
  have henclosed := count_enclosed_lower file definitions
  refine
    { field_id := fun _ => hnumbered.field?_id
      spread_id := fun _ => hnumbered.spread?_id
      inlineFragment_id := fun _ => hnumbered.inlineFragment?_id
      selectionSet_id := fun _ => hnumbered.selectionSet?_id
      listed_resolves := fun sel hsel => ?_
      enclosed_resolves := fun id hid => ?_
      listed_once := fun _ => count_eq_one_of_count_eq hlisted hnumbered.nodup_selections
      enclosed_once := fun _ => count_eq_one_of_count_eq henclosed hnumbered.nodup_setIds
      descends := fun set hset sel hsel inner hinner =>
        hclosed.arena.descends (hnumbered.selectionSet?_id hset) hsel hinner }
  · obtain ⟨set, hset, hsel⟩ := List.mem_flatMap.1 hsel
    exact hclosed.arena.resolves (hnumbered.selectionSet?_id (Array.mem_toList_iff.1 hset)) hsel
  · -- what is enclosed is counted among the sets
    have hcount := List.count_pos_iff.2 hid
    rw [henclosed] at hcount
    obtain ⟨set, hset, rfl⟩ := List.mem_map.1 (List.count_pos_iff.1 hcount)
    exact ⟨set, hnumbered.selectionSet?_id (Array.mem_toList_iff.1 hset)⟩

/-! ### Raising -/

/-- What has been lowered so far is raised from every arena that extends this one. -/
structure Raising (file : Option String) (definitions : ExecutableDocument) (d : Document) :
    Prop where
  origin : d.syntaxArena.origin = .document file
  raises : (SyntaxArena.forDocument file).Raises [] [] definitions.sets d.syntaxArena
  operations : ∀ z fuel, d.syntaxArena.Extends z → definitions.sets.length ≤ fuel →
    d.operations.map (fun o => z.raise? fuel o.selectionSet) =
      definitions.operations.map fun o => some o.selectionSet
  fragments : ∀ z fuel, d.syntaxArena.Extends z → definitions.sets.length ≤ fuel →
    d.fragments.map (fun f => z.raise? fuel f.selectionSet) =
      definitions.fragments.map fun f => some f.selectionSet

theorem Raising.addDefinition (h : Raising file definitions d) {x : ExecutableDefinition}
    (hx : x.selectionSet.Settled) : Raising file (definitions ++ [x]) (d.addDefinition x) := by
  have hset := SyntaxArena.raises_lowerSelectionSet h.origin hx
  have haccounts := d.syntaxArena.accounts_lowerSelectionSet x.selectionSet
  have hsets : (definitions ++ [x]).sets = definitions.sets ++ x.selectionSet.sets := by
    simp [ExecutableDocument.sets]
  -- the definition itself is raised in every later arena
  have hroot : ∀ z fuel, (d.syntaxArena.lowerSelectionSet x.selectionSet).2.Extends z →
      (definitions ++ [x]).sets.length ≤ fuel →
      z.raise? fuel d.syntaxArena.nextSelectionSetId = some x.selectionSet := by
    intro z fuel hz hfuel
    rw [hsets, List.length_append] at hfuel
    exact hset.first (hz.keeps _) (by rw [SelectionSet.sets] at hfuel; omega)
  have hbefore : ∀ fuel, (definitions ++ [x]).sets.length ≤ fuel →
      definitions.sets.length ≤ fuel := by
    intro fuel hfuel
    rw [hsets, List.length_append] at hfuel
    omega
  have hraises := h.raises.append hset
  rw [← hsets] at hraises
  have hextends := haccounts.extends_
  cases x with
  | operation o =>
      refine ⟨haccounts.origin.trans h.origin, hraises, fun z fuel hz hfuel => ?_,
        fun z fuel hz hfuel => ?_⟩
      · calc (d.addOperation o).operations.map (fun x => z.raise? fuel x.selectionSet)
            = d.operations.map (fun x => z.raise? fuel x.selectionSet) ++
                [z.raise? fuel d.syntaxArena.nextSelectionSetId] := List.map_append
          _ = definitions.operations.map (fun x => some x.selectionSet) ++
                [some o.selectionSet] := by
              rw [h.operations z fuel (hextends.trans hz) (hbefore fuel hfuel),
                hroot z fuel hz hfuel]
              rfl
          _ = _ := by
              rw [ExecutableDocument.operations_append, List.map_append]
              rfl
      · rw [ExecutableDocument.fragments_append, List.map_append]
        have hold := h.fragments z fuel (hextends.trans hz) (hbefore fuel hfuel)
        exact hold.trans (List.append_nil _).symm
  | fragment f =>
      refine ⟨haccounts.origin.trans h.origin, hraises, fun z fuel hz hfuel => ?_,
        fun z fuel hz hfuel => ?_⟩
      · rw [ExecutableDocument.operations_append, List.map_append]
        have hold := h.operations z fuel (hextends.trans hz) (hbefore fuel hfuel)
        exact hold.trans (List.append_nil _).symm
      · calc (d.addFragment f).fragments.map (fun x => z.raise? fuel x.selectionSet)
            = d.fragments.map (fun x => z.raise? fuel x.selectionSet) ++
                [z.raise? fuel d.syntaxArena.nextSelectionSetId] := List.map_append
          _ = definitions.fragments.map (fun x => some x.selectionSet) ++
                [some f.selectionSet] := by
              rw [h.fragments z fuel (hextends.trans hz) (hbefore fuel hfuel),
                hroot z fuel hz hfuel]
              rfl
          _ = _ := by
              rw [ExecutableDocument.fragments_append, List.map_append]
              rfl

theorem raising_lower (file : Option String) (h : definitions.Settled) :
    Raising file definitions (lower file definitions) := by
  have hall : definitions.Settled → Raising file definitions (lower file definitions) := by
    refine lower_induct (P := fun ds d => ExecutableDocument.Settled ds → Raising file ds d)
      (fun _ => ⟨rfl, SyntaxArena.Raises.refl _, fun _ _ _ _ => rfl, fun _ _ _ _ => rfl⟩) ?_
    intro before d x hd hsettled
    have hbefore : ExecutableDocument.Settled before := fun y hy =>
      hsettled y (List.mem_append_left _ hy)
    exact (hd hbefore).addDefinition (hsettled x (by simp))
  exact hall h

/-- As many units of fuel as there are selection sets suffice to raise all of them. -/
theorem raisesTo_lower (file : Option String) (h : definitions.Settled) {fuel : Nat}
    (hfuel : (lower file definitions).syntaxArena.selectionSets.size ≤ fuel) :
    (lower file definitions).RaisesTo fuel definitions := by
  have hraising := raising_lower file h
  have hbases := (closed_lower file definitions).bases
  have hnumbered :=
    (accounts_lower file definitions).numbered (SyntaxArena.Numbered.forDocument file)
  -- the arena of a document starts at zero, so there are as many sets as ids
  have hsize : (lower file definitions).syntaxArena.selectionSets.size =
      definitions.sets.length := by
    have hnext := hraising.raises.next
    simp only [SyntaxArena.nextSelectionSetId, hbases, SyntaxArena.forDocument,
      Array.size_empty] at hnext
    omega
  rw [hsize] at hfuel
  have hextends := SyntaxArena.Extends.refl (lower file definitions).syntaxArena
  refine ⟨hraising.operations _ fuel hextends hfuel, hraising.fragments _ fuel hextends hfuel, ?_⟩
  have hsets := hraising.raises.sets _ fuel (hextends.keeps _) hfuel
  rw [hnumbered.setIds_eq, hsize, hbases, List.map_map]
  exact hsets

/-- Lowering loses nothing: every selection set of a document that was read from a source text
can be raised from the arena again, and is what was read, with all positions. On the way no id
is missing or met twice. -/
theorem raised_of_source {source : String}
    (hsource : ExecutableDocument.ofSource? source = some definitions)
    (hbuild : build file definitions = .ok d) :
    (∀ fuel, d.syntaxArena.selectionSets.size ≤ fuel → d.RaisesTo fuel definitions) ∧
      d.Referred := by
  obtain ⟨rfl, -⟩ := build_eq_ok_iff.1 hbuild
  have hsettled := ExecutableDocument.settled_of_source hsource
  exact ⟨fun fuel hfuel => raisesTo_lower file hsettled hfuel, referred_lower file definitions⟩

/-- A field with a field, an inline fragment and a spread below it, as a text. -/
def nestedSource : String :=
  "\x7b me: user \x7b id ... on User \x7b name \x7d ...F \x7d \x7d\nfragment F on User \x7b id \x7d"

/-- The same as a tree. -/
def nestedDefinitions : ExecutableDocument :=
  let id := Syntax.Selection.field ⟨none, "id", [], [], ⟨1, 14⟩⟩ ⟨1, 14⟩ []
  let name := Syntax.Selection.field ⟨none, "name", [], [], ⟨1, 31⟩⟩ ⟨1, 31⟩ []
  let onUser := Syntax.Selection.inlineFragment ⟨some "User", [], ⟨1, 21⟩⟩ ⟨1, 29⟩ [name]
  let spread := Syntax.Selection.spread ⟨"F", [], ⟨1, 41⟩⟩
  let me := Syntax.Selection.field ⟨some "me", "user", [], [], ⟨1, 3⟩⟩ ⟨1, 12⟩ [id, onUser, spread]
  let inF := Syntax.Selection.field ⟨none, "id", [], [], ⟨2, 22⟩⟩ ⟨2, 22⟩ []
  [.operation ⟨.query, none, [], [], ⟨⟨1, 1⟩, [me]⟩, ⟨1, 1⟩, true⟩,
    .fragment ⟨"F", "User", [], ⟨⟨2, 20⟩, [inF]⟩, ⟨2, 1⟩⟩]

/-- It has four selection sets, and all of them can be raised. -/
theorem raised_nested :
    ExecutableDocument.ofSource? nestedSource = some nestedDefinitions ∧
      build none nestedDefinitions = .ok (lower none nestedDefinitions) ∧
      (lower none nestedDefinitions).syntaxArena.selectionSets.size = 4 ∧
      (lower none nestedDefinitions).RaisesTo 4 nestedDefinitions ∧
      (lower none nestedDefinitions).Referred := by
  have hsource : ExecutableDocument.ofSource? nestedSource = some nestedDefinitions := by cbv
  have hconflicts : conflicts (lower none nestedDefinitions).operations = [] := by cbv
  have hbuild : build none nestedDefinitions = .ok (lower none nestedDefinitions) :=
    build_eq_ok_iff.2 ⟨rfl, hconflicts⟩
  have hsize : (lower none nestedDefinitions).syntaxArena.selectionSets.size = 4 := by cbv
  obtain ⟨hraises, hreferred⟩ := raised_of_source hsource hbuild
  exact ⟨hsource, hbuild, hsize, hraises 4 hsize.le, hreferred⟩

end Document

end QueryPlan
