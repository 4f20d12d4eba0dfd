import Mathlib.Tactic
import QueryPlan.Document.Build

/-!
# What arenas keep

Adding a node to an arena changes what one new id means and nothing else. So an arena only ever
grows: `Extends` says that whatever could be looked up before means the same afterwards. The
one step that changes a node is closing a selection set, and the set it closes is one that was
opened since.
-/

set_option autoImplicit false

namespace QueryPlan

open QueryPlan.Syntax

namespace SyntaxArena

/-! ## What one step does to the lookups -/

theorem atIndex?_eq_some_iff {α : Type} {base index : Nat} {items : Array α} {x : α} :
    atIndex? base items index = some x ↔ base ≤ index ∧ items[index - base]? = some x := by
  unfold atIndex?
  by_cases h : base ≤ index
  · simp [h]
  · simp [h]

/-- A pushed item stands at the index after all others. -/
theorem atIndex?_push {α : Type} (base : Nat) (items : Array α) (x : α) (index : Nat) :
    atIndex? base (items.push x) index =
      if index = base + items.size then some x else atIndex? base items index := by
  unfold atIndex?
  by_cases h : base ≤ index
  · rw [if_pos h, if_pos h, Array.getElem?_push]
    by_cases hi : index = base + items.size
    · rw [if_pos hi, if_pos (by omega)]
    · rw [if_neg hi, if_neg (by omega)]
  · rw [if_neg h, if_neg h, if_neg (by omega)]

/-- Changing the item at an index leaves the others alone. -/
theorem atIndex?_modify {α : Type} {base at_ : Nat} (items : Array α) (f : α → α) (index : Nat)
    (h : base ≤ at_) :
    atIndex? base (items.modify (at_ - base) f) index =
      if index = at_ then (atIndex? base items index).map f else atIndex? base items index := by
  unfold atIndex?
  by_cases hb : base ≤ index
  · rw [if_pos hb, if_pos hb, Array.getElem?_modify]
    by_cases hi : index = at_
    · rw [if_pos hi, if_pos (by omega)]
    · rw [if_neg hi, if_neg (by omega)]
  · rw [if_neg hb, if_neg hb, if_neg (by omega)]

theorem lt_of_atIndex? {α : Type} {base index : Nat} {items : Array α} {x : α}
    (h : atIndex? base items index = some x) : index < base + items.size := by
  obtain ⟨hb, hx⟩ := atIndex?_eq_some_iff.1 h
  obtain ⟨hlt, -⟩ := Array.getElem?_eq_some_iff.1 hx
  omega

variable (a : SyntaxArena)

@[simp] theorem field?_addField (head : FieldHead) (set : Option SelectionSetId)
    (id : FieldId) :
    (a.addField head set).2.field? id =
      if id = a.nextFieldId then
        some ⟨id, head.aliasName, head.name, head.arguments, a.lowerDirectives head.directives,
          set, a.locate head.position⟩
      else a.field? id := by
  rcases id with ⟨i⟩
  simp only [field?, addField, nextFieldId, atIndex?_push, FieldId.mk.injEq]
  by_cases h : i = a.bases.fields + a.fields.size
  · simp [h]
  · simp [h]

@[simp] theorem spread?_addSpread (head : SpreadHead) (id : SpreadId) :
    (a.addSpread head).2.spread? id =
      if id = a.nextSpreadId then
        some ⟨id, head.name, a.lowerDirectives head.directives, a.locate head.position⟩
      else a.spread? id := by
  rcases id with ⟨i⟩
  simp only [spread?, addSpread, nextSpreadId, atIndex?_push, SpreadId.mk.injEq]
  by_cases h : i = a.bases.spreads + a.spreads.size
  · simp [h]
  · simp [h]

@[simp] theorem inlineFragment?_addInlineFragment (head : InlineHead) (set : SelectionSetId)
    (id : InlineFragmentId) :
    (a.addInlineFragment head set).2.inlineFragment? id =
      if id = a.nextInlineFragmentId then
        some ⟨id, head.typeCondition, a.lowerDirectives head.directives, set,
          a.locate head.position⟩
      else a.inlineFragment? id := by
  rcases id with ⟨i⟩
  simp only [inlineFragment?, addInlineFragment, nextInlineFragmentId, atIndex?_push,
    InlineFragmentId.mk.injEq]
  by_cases h : i = a.bases.inlineFragments + a.inlineFragments.size
  · simp [h]
  · simp [h]

/-- The id that adding a field answers with means that field. -/
theorem field?_addField_self (head : FieldHead) (set : Option SelectionSetId) :
    (a.addField head set).2.field? (a.addField head set).1 =
      some ⟨a.nextFieldId, head.aliasName, head.name, head.arguments,
        a.lowerDirectives head.directives, set, a.locate head.position⟩ :=
  (field?_addField a head set _).trans (if_pos rfl)

theorem spread?_addSpread_self (head : SpreadHead) :
    (a.addSpread head).2.spread? (a.addSpread head).1 =
      some ⟨a.nextSpreadId, head.name, a.lowerDirectives head.directives,
        a.locate head.position⟩ :=
  (spread?_addSpread a head _).trans (if_pos rfl)

theorem inlineFragment?_addInlineFragment_self (head : InlineHead) (set : SelectionSetId) :
    (a.addInlineFragment head set).2.inlineFragment? (a.addInlineFragment head set).1 =
      some ⟨a.nextInlineFragmentId, head.typeCondition, a.lowerDirectives head.directives, set,
        a.locate head.position⟩ :=
  (inlineFragment?_addInlineFragment a head set _).trans (if_pos rfl)

@[simp] theorem selectionSet?_openSelectionSet (p : Position) (id : SelectionSetId) :
    (a.openSelectionSet p).2.selectionSet? id =
      if id = a.nextSelectionSetId then some ⟨id, a.locate p, []⟩ else a.selectionSet? id := by
  rcases id with ⟨i⟩
  simp only [selectionSet?, openSelectionSet, nextSelectionSetId, atIndex?_push,
    SelectionSetId.mk.injEq]
  by_cases h : i = a.bases.selectionSets + a.selectionSets.size
  · simp [h]
  · simp [h]

@[simp] theorem selectionSet?_copySelectionSet (node : SelectionSetNode) (id : SelectionSetId) :
    (a.copySelectionSet node).2.selectionSet? id =
      if id = a.nextSelectionSetId then some { node with id := id } else a.selectionSet? id := by
  rcases id with ⟨i⟩
  simp only [selectionSet?, copySelectionSet, nextSelectionSetId, atIndex?_push,
    SelectionSetId.mk.injEq]
  by_cases h : i = a.bases.selectionSets + a.selectionSets.size
  · simp [h]
  · simp [h]

theorem selectionSet?_closeSelectionSet {set : SelectionSetId}
    (selections : List SelectionNode) (id : SelectionSetId)
    (h : a.bases.selectionSets ≤ set.index) :
    (a.closeSelectionSet set selections).selectionSet? id =
      if id = set then
        (a.selectionSet? id).map fun node => { node with selections := selections }
      else a.selectionSet? id := by
  rcases id with ⟨i⟩
  rcases set with ⟨j⟩
  simp only [selectionSet?, closeSelectionSet, SelectionSetId.mk.injEq]
  exact atIndex?_modify _ _ _ h

variable {a}

theorem lt_of_selectionSet? {id : SelectionSetId} {node : SelectionSetNode}
    (h : a.selectionSet? id = some node) : id.index < a.nextSelectionSetId.index :=
  lt_of_atIndex? h

/-! ## Growth -/

/-- Whatever `a` resolves, `b` resolves to the same. -/
structure Extends (a b : SyntaxArena) : Prop where
  bases : b.bases = a.bases
  sets : a.nextSelectionSetId.index ≤ b.nextSelectionSetId.index
  field : ∀ {id node}, a.field? id = some node → b.field? id = some node
  spread : ∀ {id node}, a.spread? id = some node → b.spread? id = some node
  inlineFragment : ∀ {id node},
    a.inlineFragment? id = some node → b.inlineFragment? id = some node
  selectionSet : ∀ {id node}, a.selectionSet? id = some node → b.selectionSet? id = some node

namespace Extends

variable {b c : SyntaxArena}

theorem refl (a : SyntaxArena) : Extends a a := ⟨rfl, le_rfl, id, id, id, id⟩

theorem trans (hab : Extends a b) (hbc : Extends b c) : Extends a c where
  bases := hbc.bases.trans hab.bases
  sets := hab.sets.trans hbc.sets
  field h := hbc.field (hab.field h)
  spread h := hbc.spread (hab.spread h)
  inlineFragment h := hbc.inlineFragment (hab.inlineFragment h)
  selectionSet h := hbc.selectionSet (hab.selectionSet h)

theorem addField (hab : Extends a b) (head : FieldHead) (set : Option SelectionSetId) :
    Extends a (b.addField head set).2 where
  bases := hab.bases
  sets := hab.sets
  field {id node} h := by
    have hb := hab.field h
    rw [field?_addField, if_neg]
    · exact hb
    -- an id that is taken is not the next one
    · intro hid
      exact absurd (lt_of_atIndex? hb) (hid ▸ Nat.lt_irrefl _)
  spread := hab.spread
  inlineFragment := hab.inlineFragment
  selectionSet := hab.selectionSet

theorem addSpread (hab : Extends a b) (head : SpreadHead) :
    Extends a (b.addSpread head).2 where
  bases := hab.bases
  sets := hab.sets
  field := hab.field
  spread {id node} h := by
    have hb := hab.spread h
    rw [spread?_addSpread, if_neg]
    · exact hb
    · intro hid
      exact absurd (lt_of_atIndex? hb) (hid ▸ Nat.lt_irrefl _)
  inlineFragment := hab.inlineFragment
  selectionSet := hab.selectionSet

theorem addInlineFragment (hab : Extends a b) (head : InlineHead) (set : SelectionSetId) :
    Extends a (b.addInlineFragment head set).2 where
  bases := hab.bases
  sets := hab.sets
  field := hab.field
  spread := hab.spread
  inlineFragment {id node} h := by
    have hb := hab.inlineFragment h
    rw [inlineFragment?_addInlineFragment, if_neg]
    · exact hb
    · intro hid
      exact absurd (lt_of_atIndex? hb) (hid ▸ Nat.lt_irrefl _)
  selectionSet := hab.selectionSet

theorem openSelectionSet (hab : Extends a b) (p : Position) :
    Extends a (b.openSelectionSet p).2 where
  bases := hab.bases
  sets := hab.sets.trans (by simp [nextSelectionSetId, SyntaxArena.openSelectionSet])
  field := hab.field
  spread := hab.spread
  inlineFragment := hab.inlineFragment
  selectionSet {id node} h := by
    have hb := hab.selectionSet h
    rw [selectionSet?_openSelectionSet, if_neg]
    · exact hb
    · intro hid
      exact absurd (lt_of_atIndex? hb) (hid ▸ Nat.lt_irrefl _)

theorem copySelectionSet (hab : Extends a b) (node : SelectionSetNode) :
    Extends a (b.copySelectionSet node).2 where
  bases := hab.bases
  sets := hab.sets.trans (by simp [nextSelectionSetId, SyntaxArena.copySelectionSet])
  field := hab.field
  spread := hab.spread
  inlineFragment := hab.inlineFragment
  selectionSet {id node} h := by
    have hb := hab.selectionSet h
    rw [selectionSet?_copySelectionSet, if_neg]
    · exact hb
    · intro hid
      exact absurd (lt_of_atIndex? hb) (hid ▸ Nat.lt_irrefl _)

/-- Closing a selection set that `a` did not have yet changes nothing that `a` resolves. -/
theorem closeSelectionSet (hab : Extends a b) {set : SelectionSetId}
    (hset : a.nextSelectionSetId.index ≤ set.index) (selections : List SelectionNode) :
    Extends a (b.closeSelectionSet set selections) where
  bases := hab.bases
  sets := by
    refine hab.sets.trans (le_of_eq ?_)
    simp [nextSelectionSetId, SyntaxArena.closeSelectionSet]
  field := hab.field
  spread := hab.spread
  inlineFragment := hab.inlineFragment
  selectionSet {id node} h := by
    have hbase : b.bases.selectionSets ≤ set.index := by
      rw [hab.bases]
      exact le_trans (Nat.le_add_right _ _) hset
    rw [selectionSet?_closeSelectionSet b selections id hbase, if_neg]
    · exact hab.selectionSet h
    · intro hid
      have hlt := lt_of_selectionSet? h
      rw [hid] at hlt
      omega

end Extends

/-! ## Lowering -/

/-- The sub-selections of the fields are selection sets whose ids are taken. -/
def Bounded (a : SyntaxArena) : Prop :=
  ∀ ⦃id node set⦄, a.field? id = some node → node.selectionSet = some set →
    set.index < a.nextSelectionSetId.index

/-- Every field carries the id that it stands under. -/
def Labelled (a : SyntaxArena) : Prop := ∀ ⦃id node⦄, a.field? id = some node → node.id = id

/-- Syntax was added to `a`, which has become `b`. -/
structure Grows (a b : SyntaxArena) : Prop where
  extends_ : a.Extends b
  bounded : a.Bounded → b.Bounded
  labelled : a.Labelled → b.Labelled

variable {b c : SyntaxArena}

/-- What stands under an id after a node was added carries the id, if the new node does and the
node that stood there before. -/
theorem label_of_added {ι α : Type} [DecidableEq ι] (label : α → ι) {id next : ι} {new node : α}
    {before : Option α} (hnew : label new = id) (hbefore : ∀ x, before = some x → label x = id)
    (h : (if id = next then some new else before) = some node) : label node = id := by
  by_cases hid : id = next
  · rw [if_pos hid, Option.some_inj] at h
    exact h ▸ hnew
  · rw [if_neg hid] at h
    exact hbefore node h

theorem Labelled.addField (h : a.Labelled) (head : FieldHead) (set : Option SelectionSetId) :
    (a.addField head set).2.Labelled := by
  intro id node hn
  rw [field?_addField] at hn
  exact label_of_added FieldNode.id rfl (fun _ hx => h hx) hn

theorem Bounded.addField (h : a.Bounded) (head : FieldHead) {set : Option SelectionSetId}
    (hset : ∀ s, set = some s → s.index < a.nextSelectionSetId.index) :
    (a.addField head set).2.Bounded := by
  intro id node s hn hs
  rw [field?_addField] at hn
  split at hn
  · cases hn
    exact hset s hs
  · exact h hn hs

namespace Grows

theorem refl (a : SyntaxArena) : Grows a a := ⟨Extends.refl a, id, id⟩

theorem trans (hab : Grows a b) (hbc : Grows b c) : Grows a c :=
  ⟨hab.extends_.trans hbc.extends_, fun h => hbc.bounded (hab.bounded h),
    fun h => hbc.labelled (hab.labelled h)⟩

theorem copySelectionSet (hab : Grows a b) (node : SelectionSetNode) :
    Grows a (b.copySelectionSet node).2 where
  extends_ := hab.extends_.copySelectionSet node
  bounded ha _ _ _ hn hs :=
    (hab.bounded ha hn hs).trans_le
      (((Extends.refl b).copySelectionSet node).sets)
  labelled := hab.labelled

/-- A selection set around what was added in between. -/
theorem enclose {p : Position} (h : Grows (a.openSelectionSet p).2 b)
    (nodes : List SelectionNode) :
    Grows a (b.closeSelectionSet a.nextSelectionSetId nodes) ∧
      a.nextSelectionSetId.index
        < (b.closeSelectionSet a.nextSelectionSetId nodes).nextSelectionSetId.index := by
  have hopen := (Extends.refl a).openSelectionSet p
  have hclose := (hopen.trans h.extends_).closeSelectionSet le_rfl nodes
  have hnext : (b.closeSelectionSet a.nextSelectionSetId nodes).nextSelectionSetId
      = b.nextSelectionSetId := by
    simp [nextSelectionSetId, closeSelectionSet]
  refine ⟨⟨hclose, fun ha id node set hn hs => ?_, h.labelled⟩, ?_⟩
  · rw [hnext]
    exact h.bounded (fun id node set hn hs => (ha hn hs).trans_le hopen.sets) hn hs
  · rw [hnext]
    refine Nat.lt_of_lt_of_le ?_ h.extends_.sets
    simp [nextSelectionSetId, openSelectionSet]

end Grows

mutual

/-- Whatever the arena refers to outside of it, lowering only adds to it. -/
theorem grows_lowerSelection (a : SyntaxArena) (s : Syntax.Selection) :
    a.Grows (a.lowerSelection s).2 := by
  cases s with
  | field head p items =>
      rw [lowerSelection]
      by_cases hempty : items.isEmpty
      · rw [if_pos hempty]
        exact ⟨(Extends.refl a).addField head none,
          fun h => h.addField head fun s hs => absurd hs (by simp), fun h => h.addField head none⟩
      · rw [if_neg hempty]
        obtain ⟨hset, hlt⟩ := (grows_lowerItems (a.openSelectionSet p).2 items).enclose
          (lowerItems (a.openSelectionSet p).2 items).1
        exact ⟨hset.extends_.addField head _,
          fun h => (hset.bounded h).addField head fun s hs => Option.some.inj hs ▸ hlt,
          fun h => (hset.labelled h).addField head _⟩
  | spread head =>
      rw [lowerSelection]
      exact ⟨(Extends.refl a).addSpread head, id, id⟩
  | inlineFragment head p items =>
      rw [lowerSelection]
      obtain ⟨hset, -⟩ := (grows_lowerItems (a.openSelectionSet p).2 items).enclose
        (lowerItems (a.openSelectionSet p).2 items).1
      exact ⟨hset.extends_.addInlineFragment head _, hset.bounded, hset.labelled⟩

theorem grows_lowerItems (a : SyntaxArena) (items : List Syntax.Selection) :
    a.Grows (a.lowerItems items).2 := by
  cases items with
  | nil =>
      rw [lowerItems]
      exact Grows.refl a
  | cons s rest =>
      rw [lowerItems]
      exact (grows_lowerSelection a s).trans (grows_lowerItems _ rest)

end

end SyntaxArena

end QueryPlan
