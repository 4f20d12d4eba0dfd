import QueryPlan.Proofs.Document.Closed

/-!
# What an arena refers to

Every selection of a lowered document is listed by one selection set, and every selection set
stands inside one field, one inline fragment or one definition. Neither can be said of an arena
in the middle of lowering, where selections wait for their set to be closed, and sets for the
node around them. `Accounts` keeps the balance: all that was added is listed or enclosed, but for
what is still waiting.
-/

set_option autoImplicit false

namespace QueryPlan

open QueryPlan.Syntax

namespace SyntaxArena

/-! ## Nodes and references -/

/-- The selections of all kinds that an arena holds. -/
def selections (a : SyntaxArena) : List SelectionNode :=
  a.fields.toList.map (fun node => .field node.id) ++
    a.spreads.toList.map (fun node => .spread node.id) ++
    a.inlineFragments.toList.map (fun node => .inlineFragment node.id)

/-- The selections that sets list, set after set. -/
def listed (a : SyntaxArena) : List SelectionNode := a.selectionSets.toList.flatMap (·.selections)

def setIds (a : SyntaxArena) : List SelectionSetId := a.selectionSets.toList.map (·.id)

/-- The sets that stand inside fields and inline fragments. -/
def enclosed (a : SyntaxArena) : List SelectionSetId :=
  a.fields.toList.filterMap (·.selectionSet) ++ a.inlineFragments.toList.map (·.selectionSet)

/-- Every node carries the id that it stands under. -/
structure Numbered (a : SyntaxArena) : Prop where
  field : a.Labelled
  spread : ∀ {id node}, a.spread? id = some node → node.id = id
  inlineFragment : ∀ {id node}, a.inlineFragment? id = some node → node.id = id
  selectionSet : ∀ {id node}, a.selectionSet? id = some node → node.id = id

variable {a b c : SyntaxArena}

theorem mem_iff_atIndex? {α : Type} {base : Nat} {items : Array α} {x : α} :
    x ∈ items ↔ ∃ index, atIndex? base items index = some x := by
  constructor
  · intro h
    obtain ⟨i, hi⟩ := Array.mem_iff_getElem?.1 h
    refine ⟨base + i, atIndex?_eq_some_iff.2 ⟨Nat.le_add_right _ _, ?_⟩⟩
    rwa [Nat.add_sub_cancel_left]
  · rintro ⟨index, h⟩
    exact Array.mem_iff_getElem?.2 ⟨_, (atIndex?_eq_some_iff.1 h).2⟩

/-- Items that carry a name for the index they stand at carry different names. -/
theorem nodup_map_of_atIndex? {α β : Type} {base : Nat} {items : Array α} {label : α → β}
    (name : Nat → β) (hname : Function.Injective name)
    (h : ∀ index x, atIndex? base items index = some x → label x = name index) :
    (items.toList.map label).Nodup := by
  have hat : ∀ i (hi : i < items.toList.length), label items.toList[i] = name (base + i) := by
    intro i hi
    refine h _ _ (atIndex?_eq_some_iff.2 ⟨Nat.le_add_right _ _, ?_⟩)
    rw [Nat.add_sub_cancel_left, Array.getElem?_eq_some_iff]
    exact ⟨by simpa using hi, by simp⟩
  rw [List.Nodup, List.pairwise_map, List.pairwise_iff_getElem]
  intro i j hi hj hij heq
  rw [hat i hi, hat j hj] at heq
  have hsame := hname heq
  omega

namespace Numbered

theorem forDocument (file : Option String) : (forDocument file).Numbered where
  field id node h := by simp [field?, SyntaxArena.forDocument, atIndex?] at h
  spread h := by simp [spread?, SyntaxArena.forDocument, atIndex?] at h
  inlineFragment h := by simp [inlineFragment?, SyntaxArena.forDocument, atIndex?] at h
  selectionSet h := by simp [selectionSet?, SyntaxArena.forDocument, atIndex?] at h

theorem syntheticAfter (a : SyntaxArena) : a.syntheticAfter.Numbered where
  field id node h := by simp [field?, SyntaxArena.syntheticAfter, atIndex?] at h
  spread h := by simp [spread?, SyntaxArena.syntheticAfter, atIndex?] at h
  inlineFragment h := by simp [inlineFragment?, SyntaxArena.syntheticAfter, atIndex?] at h
  selectionSet h := by simp [selectionSet?, SyntaxArena.syntheticAfter, atIndex?] at h

theorem field?_id (h : a.Numbered) {node : FieldNode} (hm : node ∈ a.fields) :
    a.field? node.id = some node := by
  obtain ⟨index, hindex⟩ := mem_iff_atIndex?.1 hm
  have hlook : a.field? ⟨index⟩ = some node := hindex
  rw [h.field hlook, hlook]

theorem spread?_id (h : a.Numbered) {node : SpreadNode} (hm : node ∈ a.spreads) :
    a.spread? node.id = some node := by
  obtain ⟨index, hindex⟩ := mem_iff_atIndex?.1 hm
  have hlook : a.spread? ⟨index⟩ = some node := hindex
  rw [h.spread hlook, hlook]

theorem inlineFragment?_id (h : a.Numbered) {node : InlineFragmentNode}
    (hm : node ∈ a.inlineFragments) : a.inlineFragment? node.id = some node := by
  obtain ⟨index, hindex⟩ := mem_iff_atIndex?.1 hm
  have hlook : a.inlineFragment? ⟨index⟩ = some node := hindex
  rw [h.inlineFragment hlook, hlook]

theorem selectionSet?_id (h : a.Numbered) {node : SelectionSetNode}
    (hm : node ∈ a.selectionSets) : a.selectionSet? node.id = some node := by
  obtain ⟨index, hindex⟩ := mem_iff_atIndex?.1 hm
  have hlook : a.selectionSet? ⟨index⟩ = some node := hindex
  rw [h.selectionSet hlook, hlook]

/-- The ids of sets count on from where the arena starts. -/
theorem setIds_eq (h : a.Numbered) : a.setIds =
    (List.range' a.bases.selectionSets a.selectionSets.size).map SelectionSetId.mk := by
  refine List.ext_getElem (by simp [setIds]) fun i hi _ => ?_
  have hlt : i < a.selectionSets.size := by simpa [setIds] using hi
  have hat : a.selectionSet? ⟨a.bases.selectionSets + i⟩ = some a.selectionSets[i] := by
    simp [selectionSet?, atIndex?, hlt]
  have hid := h.selectionSet hat
  simpa [setIds] using hid

theorem nodup_setIds (h : a.Numbered) : a.setIds.Nodup := by
  rw [h.setIds_eq]
  exact (List.nodup_range').map fun _ _ heq => congrArg SelectionSetId.index heq

/-- No selection is there twice: the ids of one kind differ, and so do the kinds. -/
theorem nodup_selections (h : a.Numbered) : a.selections.Nodup := by
  have hfields : (a.fields.toList.map fun node => SelectionNode.field node.id).Nodup :=
    nodup_map_of_atIndex? (fun i => .field ⟨i⟩) (fun i j heq => by cases heq; rfl)
      fun index _ hx => congrArg _ (@h.field ⟨index⟩ _ hx)
  have hspreads : (a.spreads.toList.map fun node => SelectionNode.spread node.id).Nodup :=
    nodup_map_of_atIndex? (fun i => .spread ⟨i⟩) (fun i j heq => by cases heq; rfl)
      fun index _ hx => congrArg _ (@Numbered.spread _ h ⟨index⟩ _ hx)
  have hinline :
      (a.inlineFragments.toList.map fun node => SelectionNode.inlineFragment node.id).Nodup :=
    nodup_map_of_atIndex? (fun i => .inlineFragment ⟨i⟩) (fun i j heq => by cases heq; rfl)
      fun index _ hx => congrArg _ (@Numbered.inlineFragment _ h ⟨index⟩ _ hx)
  refine List.Nodup.append (List.Nodup.append hfields hspreads ?_) hinline ?_
  · intro x hx hy
    obtain ⟨node, -, rfl⟩ := List.mem_map.1 hx
    obtain ⟨node', -, heq⟩ := List.mem_map.1 hy
    cases heq
  · intro x hx hy
    obtain ⟨node', -, rfl⟩ := List.mem_map.1 hy
    simp at hx

end Numbered

/-! ## The balance -/

/-- `b` is `a` with syntax added: the selections `nodes` that no set lists yet, the sets `sets`
that nothing encloses yet, and what they are made of. -/
structure Accounts (a : SyntaxArena) (nodes : List SelectionNode) (sets : List SelectionSetId)
    (b : SyntaxArena) : Prop where
  extends_ : a.Extends b
  origin : b.origin = a.origin
  numbered : a.Numbered → b.Numbered
  listed : ∀ x, b.listed.count x + nodes.count x + a.selections.count x =
    a.listed.count x + b.selections.count x
  enclosed : ∀ x, b.enclosed.count x + sets.count x + a.setIds.count x =
    a.enclosed.count x + b.setIds.count x

namespace Accounts

variable {nodes nodes' : List SelectionNode} {sets sets' : List SelectionSetId}

theorem refl (a : SyntaxArena) : a.Accounts [] [] a :=
  ⟨Extends.refl a, rfl, id, fun x => by simp, fun x => by simp⟩

/-- What waits for two pieces of syntax, one added after the other, waits for both. -/
theorem append (h : a.Accounts nodes sets b) (h' : b.Accounts nodes' sets' c) :
    a.Accounts (nodes ++ nodes') (sets ++ sets') c where
  extends_ := h.extends_.trans h'.extends_
  origin := h'.origin.trans h.origin
  numbered hn := h'.numbered (h.numbered hn)
  listed x := by
    have hab := h.listed x
    have hbc := h'.listed x
    rw [List.count_append]
    omega
  enclosed x := by
    have hab := h.enclosed x
    have hbc := h'.enclosed x
    rw [List.count_append]
    omega

/-- A field takes the set inside it off what waits, and waits for a set that lists it. -/
theorem addField {set : Option SelectionSetId} (h : a.Accounts nodes (set.toList ++ sets) b)
    (head : FieldHead) :
    a.Accounts (.field (b.addField head set).1 :: nodes) sets (b.addField head set).2 where
  extends_ := h.extends_.addField head set
  origin := h.origin
  numbered hn :=
    have hb := h.numbered hn
    ⟨hb.field.addField head set, hb.spread, hb.inlineFragment, hb.selectionSet⟩
  listed x := by
    have hab := h.listed x
    simp only [SyntaxArena.listed, selections, SyntaxArena.addField, Array.toList_push,
      List.map_append, List.map_cons, List.map_nil, List.count_append, List.count_cons,
      List.count_nil] at hab ⊢
    omega
  enclosed x := by
    have hab := h.enclosed x
    cases set with
    | none =>
        simp only [SyntaxArena.enclosed, setIds, SyntaxArena.addField, Array.toList_push,
          List.filterMap_append, List.filterMap_cons, List.filterMap_nil, List.count_append,
          List.count_nil, Option.toList_none] at hab ⊢
        omega
    | some inner =>
        simp only [SyntaxArena.enclosed, setIds, SyntaxArena.addField, Array.toList_push,
          List.filterMap_append, List.filterMap_cons, List.filterMap_nil, List.count_append,
          List.count_cons, List.count_nil, Option.toList_some] at hab ⊢
        omega

theorem addSpread (h : a.Accounts nodes sets b) (head : SpreadHead) :
    a.Accounts (.spread (b.addSpread head).1 :: nodes) sets (b.addSpread head).2 where
  extends_ := h.extends_.addSpread head
  origin := h.origin
  numbered hn := by
    have hb := h.numbered hn
    refine ⟨hb.field, fun {id node} hnode => ?_, hb.inlineFragment, hb.selectionSet⟩
    rw [spread?_addSpread] at hnode
    exact label_of_added SpreadNode.id rfl (fun _ => hb.spread) hnode
  listed x := by
    have hab := h.listed x
    simp only [SyntaxArena.listed, selections, SyntaxArena.addSpread, Array.toList_push,
      List.map_append, List.map_cons, List.map_nil, List.count_append, List.count_cons,
      List.count_nil] at hab ⊢
    omega
  enclosed := h.enclosed

theorem addInlineFragment {set : SelectionSetId} (h : a.Accounts nodes (set :: sets) b)
    (head : InlineHead) :
    a.Accounts (.inlineFragment (b.addInlineFragment head set).1 :: nodes) sets
      (b.addInlineFragment head set).2 where
  extends_ := h.extends_.addInlineFragment head set
  origin := h.origin
  numbered hn := by
    have hb := h.numbered hn
    refine ⟨hb.field, hb.spread, fun {id node} hnode => ?_, hb.selectionSet⟩
    rw [inlineFragment?_addInlineFragment] at hnode
    exact label_of_added InlineFragmentNode.id rfl (fun _ => hb.inlineFragment) hnode
  listed x := by
    have hab := h.listed x
    simp only [SyntaxArena.listed, selections, SyntaxArena.addInlineFragment, Array.toList_push,
      List.map_append, List.map_cons, List.map_nil, List.count_append, List.count_cons,
      List.count_nil] at hab ⊢
    omega
  enclosed x := by
    have hab := h.enclosed x
    simp only [SyntaxArena.enclosed, setIds, SyntaxArena.addInlineFragment, Array.toList_push,
      List.map_append, List.map_cons, List.map_nil, List.count_append, List.count_cons,
      List.count_nil] at hab ⊢
    omega

/-- A set is opened without selections, and waits for a node around it. -/
theorem openSelectionSet (a : SyntaxArena) (p : Position) :
    a.Accounts [] [a.nextSelectionSetId] (a.openSelectionSet p).2 where
  extends_ := (Extends.refl a).openSelectionSet p
  origin := rfl
  numbered hn := by
    refine ⟨hn.field, hn.spread, hn.inlineFragment, fun {id node} hnode => ?_⟩
    rw [selectionSet?_openSelectionSet] at hnode
    exact label_of_added SelectionSetNode.id rfl (fun _ => hn.selectionSet) hnode
  listed x := by
    simp only [SyntaxArena.listed, selections, SyntaxArena.openSelectionSet, Array.toList_push,
      List.flatMap_append, List.flatMap_cons, List.flatMap_nil, List.append_nil, List.count_nil,
      Nat.add_zero]
  enclosed x := by
    simp only [SyntaxArena.enclosed, setIds, SyntaxArena.openSelectionSet, Array.toList_push,
      List.map_append, List.map_cons, List.map_nil, List.count_append]
    omega

/-- What waits for a node around it may be listed in any order. -/
theorem perm (h : a.Accounts nodes sets b) (hsets : sets.Perm sets') :
    a.Accounts nodes sets' b :=
  ⟨h.extends_, h.origin, h.numbered, h.listed, fun x => hsets.count_eq x ▸ h.enclosed x⟩

end Accounts

/-- Closing a set that lists nothing yet adds its selections to those listed, and changes
nothing else that counts. -/
theorem listed_closeSelectionSet {set : SelectionSetId} {node : SelectionSetNode}
    (hset : a.selectionSet? set = some node) (hnone : node.selections = [])
    (nodes : List SelectionNode) (x : SelectionNode) :
    (a.closeSelectionSet set nodes).listed.count x = a.listed.count x + nodes.count x ∧
      (a.closeSelectionSet set nodes).setIds = a.setIds := by
  obtain ⟨-, hat⟩ := atIndex?_eq_some_iff.1 hset
  obtain ⟨hlt, hnode⟩ := Array.getElem?_eq_some_iff.1 hat
  obtain ⟨before, old, after, hbefore, hlen, hafter⟩ :=
    List.exists_of_modify (fun node : SelectionSetNode => { node with selections := nodes })
      (i := set.index - a.bases.selectionSets) (l := a.selectionSets.toList) (by simpa using hlt)
  -- the set that is changed is the one that was looked up
  obtain rfl : old = node := by
    have hold : a.selectionSets.toList[set.index - a.bases.selectionSets]? = some old := by
      rw [hbefore, ← hlen, List.getElem?_append_right le_rfl, Nat.sub_self]
      rfl
    rw [Array.getElem?_toList, hat] at hold
    exact (Option.some.inj hold).symm
  simp only [listed, setIds, closeSelectionSet, Array.toList_modify, hafter]
  rw [hbefore]
  constructor
  · simp only [List.flatMap_append, List.flatMap_cons, List.count_append, hnone, List.count_nil]
    omega
  · simp

/-- A set that is closed over what was added since it was opened waits for a node around it. -/
theorem Accounts.enclose {p : Position} {nodes : List SelectionNode}
    (h : (a.openSelectionSet p).2.Accounts nodes [] b) :
    a.Accounts [] [a.nextSelectionSetId] (b.closeSelectionSet a.nextSelectionSetId nodes) := by
  have hall := (Accounts.openSelectionSet a p).append h
  have hopen : (a.openSelectionSet p).2.selectionSet? a.nextSelectionSetId
      = some ⟨a.nextSelectionSetId, a.locate p, []⟩ := by
    rw [selectionSet?_openSelectionSet, if_pos rfl]
  have hclose := listed_closeSelectionSet (h.extends_.selectionSet hopen) rfl nodes
  refine ⟨hall.extends_.closeSelectionSet le_rfl nodes, hall.origin, fun hn => ?_,
    fun x => ?_, fun x => ?_⟩
  · have hb := hall.numbered hn
    refine ⟨hb.field, hb.spread, hb.inlineFragment, fun {id node} hnode => ?_⟩
    rw [selectionSet?_closeSelectionSet b nodes id h.extends_.bases_le_opened] at hnode
    by_cases hid : id = a.nextSelectionSetId
    · rw [if_pos hid, Option.map_eq_some_iff] at hnode
      obtain ⟨old, hold, rfl⟩ := hnode
      have hid : old.id = id := hb.selectionSet hold
      exact hid
    · rw [if_neg hid] at hnode
      exact hb.selectionSet hnode
  · have hlisted := hall.listed x
    obtain ⟨hcount, -⟩ := hclose x
    have hselections :
        (b.closeSelectionSet a.nextSelectionSetId nodes).selections = b.selections := rfl
    rw [hcount, hselections, List.count_nil]
    rw [List.nil_append] at hlisted
    omega
  · have henclosed := hall.enclosed x
    rw [(hclose (.field ⟨0⟩)).2]
    rw [List.append_nil] at henclosed
    exact henclosed

/-! ## Lowering -/

mutual

/-- Lowering leaves one selection waiting, and no set. -/
theorem accounts_lowerSelection (a : SyntaxArena) (s : Syntax.Selection) :
    a.Accounts [(a.lowerSelection s).1] [] (a.lowerSelection s).2 := by
  cases s with
  | field head p items =>
      rw [lowerSelection]
      by_cases hempty : items.isEmpty
      · rw [if_pos hempty]
        have hnone : a.Accounts [] ((none : Option SelectionSetId).toList ++ []) a :=
          Accounts.refl a
        exact hnone.addField head
      · rw [if_neg hempty]
        have hitems := accounts_lowerItems (a.openSelectionSet p).2 items
        have hset : a.Accounts [] ((some a.nextSelectionSetId).toList ++ [])
            (((a.openSelectionSet p).2.lowerItems items).2.closeSelectionSet a.nextSelectionSetId
              ((a.openSelectionSet p).2.lowerItems items).1) := hitems.enclose
        exact hset.addField head
  | spread head =>
      rw [lowerSelection]
      exact (Accounts.refl a).addSpread head
  | inlineFragment head p items =>
      rw [lowerSelection]
      have hitems := accounts_lowerItems (a.openSelectionSet p).2 items
      exact hitems.enclose.addInlineFragment head

theorem accounts_lowerItems (a : SyntaxArena) (items : List Syntax.Selection) :
    a.Accounts (a.lowerItems items).1 [] (a.lowerItems items).2 := by
  cases items with
  | nil =>
      rw [lowerItems]
      exact Accounts.refl a
  | cons s rest =>
      rw [lowerItems]
      exact (accounts_lowerSelection a s).append (accounts_lowerItems _ rest)

end

/-- Only the set itself is left waiting. -/
theorem accounts_lowerSelectionSet (a : SyntaxArena) (s : Syntax.SelectionSet) :
    a.Accounts [] [(a.lowerSelectionSet s).1] (a.lowerSelectionSet s).2 :=
  (accounts_lowerItems (a.openSelectionSet s.position).2 s.items).enclose

end SyntaxArena

end QueryPlan
