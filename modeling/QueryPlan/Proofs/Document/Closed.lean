import QueryPlan.Proofs.Document.Arena

/-!
# Built documents are closed

Every id that a node of a document refers to is one of the document, and a selection set comes
before the sets inside it. Lowering keeps both: `Lowered` says what the selections just lowered
may refer to, and a set is closed over them once they all stand in the arena.
-/

set_option autoImplicit false

namespace QueryPlan

open QueryPlan.Syntax

namespace SyntaxArena

/-- The selection set that stands directly inside a selection. -/
def innerSet? (a : SyntaxArena) : SelectionNode → Option SelectionSetId
  | .field id => (a.field? id).bind (·.selectionSet)
  | .spread _ => none
  | .inlineFragment id => (a.inlineFragment? id).map (·.selectionSet)

/-- The id of a selection is one of the arena. -/
def Resolves (a : SyntaxArena) : SelectionNode → Prop
  | .field id => ∃ node, a.field? id = some node
  | .spread id => ∃ node, a.spread? id = some node
  | .inlineFragment id => ∃ node, a.inlineFragment? id = some node

/-- Nothing in the arena refers to what is not there, and sets come before those inside. -/
structure Closed (a : SyntaxArena) : Prop where
  field_id : ∀ {id node}, a.field? id = some node → node.id = id
  resolves : ∀ {id set sel},
    a.selectionSet? id = some set → sel ∈ set.selections → a.Resolves sel
  inner : ∀ {sel inner}, a.innerSet? sel = some inner → ∃ set, a.selectionSet? inner = some set
  descends : ∀ {id set sel inner}, a.selectionSet? id = some set → sel ∈ set.selections →
    a.innerSet? sel = some inner → id.index < inner.index

/-- The selections `nodes` were added to `a`, which has become `b`. -/
structure Lowered (a : SyntaxArena) (nodes : List SelectionNode) (b : SyntaxArena) : Prop where
  extends_ : a.Extends b
  closed : b.Closed
  resolves : ∀ sel ∈ nodes, b.Resolves sel
  inner_le : ∀ sel ∈ nodes, ∀ inner, b.innerSet? sel = some inner →
    a.nextSelectionSetId.index ≤ inner.index

variable {a b c : SyntaxArena}

/-! ## Growth and closedness -/

theorem Extends.resolves (h : a.Extends b) {sel : SelectionNode} (hs : a.Resolves sel) :
    b.Resolves sel := by
  cases sel with
  | field id => exact hs.imp fun _ => h.field
  | spread id => exact hs.imp fun _ => h.spread
  | inlineFragment id => exact hs.imp fun _ => h.inlineFragment

/-- What stands inside a selection does not change any more. -/
theorem Extends.innerSet? (h : a.Extends b) {sel : SelectionNode} (hs : a.Resolves sel) :
    b.innerSet? sel = a.innerSet? sel := by
  cases sel with
  | field id =>
      obtain ⟨node, hn⟩ := hs
      simp only [SyntaxArena.innerSet?, hn, h.field hn]
  | spread id => rfl
  | inlineFragment id =>
      obtain ⟨node, hn⟩ := hs
      simp only [SyntaxArena.innerSet?, hn, h.inlineFragment hn]

theorem closed_forDocument (file : Option String) : (forDocument file).Closed where
  field_id h := by simp [field?, forDocument, atIndex?] at h
  resolves h := by simp [selectionSet?, forDocument, atIndex?] at h
  inner {sel _} h := by
    cases sel <;>
      simp [SyntaxArena.innerSet?, field?, inlineFragment?, forDocument, atIndex?] at h
  descends h := by simp [selectionSet?, forDocument, atIndex?] at h

/-- Selections that were there already refer to what they referred to before. -/
theorem Closed.of_sets (h : a.Closed) (hab : a.Extends b)
    (hsets : ∀ id, b.selectionSet? id = a.selectionSet? id)
    (hid : ∀ {id node}, b.field? id = some node → node.id = id)
    (hinner : ∀ {sel inner}, b.innerSet? sel = some inner →
      a.innerSet? sel = some inner ∨ ∃ set, a.selectionSet? inner = some set) : b.Closed where
  field_id := hid
  resolves {id set sel} hset hsel :=
    hab.resolves (h.resolves (hsets id ▸ hset) hsel)
  -- a set inside a selection was inside one before, or is there for another reason
  inner {sel inner} hs := by
    rw [hsets]
    exact (hinner hs).elim h.inner id
  descends {id set sel inner} hset hsel hs := by
    rw [hsets] at hset
    rw [hab.innerSet? (h.resolves hset hsel)] at hs
    exact h.descends hset hsel hs

theorem Closed.addField (h : a.Closed) (head : FieldHead) (set : Option SelectionSetId)
    (hset : ∀ s, set = some s → ∃ node, a.selectionSet? s = some node) :
    (a.addField head set).2.Closed := by
  refine h.of_sets ((Extends.refl a).addField head set) (fun _ => rfl)
    (fun hn => Labelled.addField (fun _ _ => h.field_id) head set hn) ?_
  intro sel inner hs
  cases sel with
  | field id =>
      rw [SyntaxArena.innerSet?, field?_addField] at hs
      by_cases hid : id = a.nextFieldId
      · rw [if_pos hid] at hs
        exact Or.inr (hset inner hs)
      · rw [if_neg hid] at hs
        exact Or.inl hs
  | spread id => exact Or.inl hs
  | inlineFragment id => exact Or.inl hs

theorem Closed.addSpread (h : a.Closed) (head : SpreadHead) : (a.addSpread head).2.Closed := by
  refine h.of_sets ((Extends.refl a).addSpread head) (fun _ => rfl) h.field_id ?_
  intro sel inner hs
  cases sel <;> exact Or.inl hs

theorem Closed.addInlineFragment (h : a.Closed) (head : InlineHead) (set : SelectionSetId)
    (hset : ∃ node, a.selectionSet? set = some node) :
    (a.addInlineFragment head set).2.Closed := by
  refine h.of_sets ((Extends.refl a).addInlineFragment head set) (fun _ => rfl) h.field_id ?_
  intro sel inner hs
  cases sel with
  | field id => exact Or.inl hs
  | spread id => exact Or.inl hs
  | inlineFragment id =>
      rw [SyntaxArena.innerSet?, inlineFragment?_addInlineFragment] at hs
      by_cases hid : id = a.nextInlineFragmentId
      · rw [if_pos hid, Option.map_some, Option.some_inj] at hs
        exact Or.inr (hs ▸ hset)
      · rw [if_neg hid] at hs
        exact Or.inl hs

theorem Closed.openSelectionSet (h : a.Closed) (p : Position) :
    (a.openSelectionSet p).2.Closed where
  field_id := h.field_id
  resolves {id set sel} hset hsel := by
    rw [selectionSet?_openSelectionSet] at hset
    by_cases hid : id = a.nextSelectionSetId
    · rw [if_pos hid, Option.some_inj] at hset
      rw [← hset] at hsel
      exact absurd hsel List.not_mem_nil
    · rw [if_neg hid] at hset
      exact ((Extends.refl a).openSelectionSet p).resolves (h.resolves hset hsel)
  inner {sel inner} hs := by
    have hs : a.innerSet? sel = some inner := by
      cases sel <;> exact hs
    obtain ⟨set, hset⟩ := h.inner hs
    exact ⟨set, ((Extends.refl a).openSelectionSet p).selectionSet hset⟩
  descends {id set sel inner} hset hsel hs := by
    rw [selectionSet?_openSelectionSet] at hset
    by_cases hid : id = a.nextSelectionSetId
    · rw [if_pos hid, Option.some_inj] at hset
      rw [← hset] at hsel
      exact absurd hsel List.not_mem_nil
    · rw [if_neg hid] at hset
      exact h.descends hset hsel hs

/-- A set may be closed over selections that are there and whose sets come after it. -/
theorem Closed.closeSelectionSet (h : a.Closed) {set : SelectionSetId}
    {selections : List SelectionNode} (hbase : a.bases.selectionSets ≤ set.index)
    (hres : ∀ sel ∈ selections, a.Resolves sel)
    (hlt : ∀ sel ∈ selections, ∀ inner, a.innerSet? sel = some inner → set.index < inner.index) :
    (a.closeSelectionSet set selections).Closed where
  field_id := h.field_id
  resolves {id node sel} hnode hsel := by
    rw [selectionSet?_closeSelectionSet a selections id hbase] at hnode
    by_cases hid : id = set
    · rw [if_pos hid, Option.map_eq_some_iff] at hnode
      obtain ⟨old, -, rfl⟩ := hnode
      exact hres sel hsel
    · rw [if_neg hid] at hnode
      exact h.resolves hnode hsel
  inner {sel inner} hs := by
    have hs : a.innerSet? sel = some inner := by
      cases sel <;> exact hs
    obtain ⟨node, hnode⟩ := h.inner hs
    rw [selectionSet?_closeSelectionSet a selections inner hbase, hnode, Option.map_some]
    by_cases hid : inner = set
    · exact ⟨_, if_pos hid⟩
    · exact ⟨_, if_neg hid⟩
  descends {id node sel inner} hnode hsel hs := by
    rw [selectionSet?_closeSelectionSet a selections id hbase] at hnode
    by_cases hid : id = set
    · rw [if_pos hid, Option.map_eq_some_iff] at hnode
      obtain ⟨old, -, rfl⟩ := hnode
      rw [hid]
      exact hlt sel hsel inner hs
    · rw [if_neg hid] at hnode
      exact h.descends hnode hsel hs

/-! ## Lowering -/

theorem Lowered.nil (h : a.Closed) : a.Lowered [] a where
  extends_ := Extends.refl a
  closed := h
  resolves _ hm := absurd hm List.not_mem_nil
  inner_le _ hm := absurd hm List.not_mem_nil

theorem Lowered.cons {node : SelectionNode} {nodes : List SelectionNode}
    (h₁ : a.Lowered [node] b) (h₂ : b.Lowered nodes c) : a.Lowered (node :: nodes) c where
  extends_ := h₁.extends_.trans h₂.extends_
  closed := h₂.closed
  resolves sel hm := by
    rcases List.mem_cons.1 hm with rfl | hm
    · exact h₂.extends_.resolves (h₁.resolves _ (List.mem_singleton_self _))
    · exact h₂.resolves sel hm
  inner_le sel hm inner hs := by
    rcases List.mem_cons.1 hm with rfl | hm
    · rw [h₂.extends_.innerSet? (h₁.resolves _ (List.mem_singleton_self _))] at hs
      exact h₁.inner_le _ (List.mem_singleton_self _) inner hs
    · exact h₁.extends_.sets.trans (h₂.inner_le sel hm inner hs)

/-- A set that was opened, and closed over what was lowered in between. -/
structure Enclosed (a : SyntaxArena) (set : SelectionSetId) (b : SyntaxArena) : Prop where
  extends_ : a.Extends b
  closed : b.Closed
  exists_set : ∃ node, b.selectionSet? set = some node
  next_le : a.nextSelectionSetId.index ≤ set.index

theorem nextSelectionSetId_openSelectionSet (a : SyntaxArena) (p : Position) :
    (a.openSelectionSet p).2.nextSelectionSetId.index = a.nextSelectionSetId.index + 1 := by
  simp [nextSelectionSetId, openSelectionSet, Nat.add_assoc]

/-- The id of a set that was opened is not one of what came before the arena. -/
theorem Extends.bases_le_opened {p : Position} (h : (a.openSelectionSet p).2.Extends b) :
    b.bases.selectionSets ≤ a.nextSelectionSetId.index := by
  rw [h.bases]
  exact Nat.le_add_right _ _

/-- A set that was opened before all that was added since is closed over some selections. -/
theorem selectionSet?_enclosed {p : Position} (h : (a.openSelectionSet p).2.Extends b)
    (nodes : List SelectionNode) :
    (b.closeSelectionSet a.nextSelectionSetId nodes).selectionSet? a.nextSelectionSetId =
      some ⟨a.nextSelectionSetId, a.locate p, nodes⟩ := by
  have hopen : (a.openSelectionSet p).2.selectionSet? a.nextSelectionSetId
      = some ⟨a.nextSelectionSetId, a.locate p, []⟩ := by
    rw [selectionSet?_openSelectionSet, if_pos rfl]
  rw [selectionSet?_closeSelectionSet b nodes _ h.bases_le_opened, if_pos rfl,
    h.selectionSet hopen, Option.map_some]

theorem Lowered.enclosed {p : Position} {nodes : List SelectionNode}
    (h : (a.openSelectionSet p).2.Lowered nodes b) :
    a.Enclosed a.nextSelectionSetId (b.closeSelectionSet a.nextSelectionSetId nodes) := by
  have hab : a.Extends b := ((Extends.refl a).openSelectionSet p).trans h.extends_
  -- the set was opened before what stands inside it, so its id comes first
  refine ⟨hab.closeSelectionSet le_rfl nodes, ?_, ⟨_, selectionSet?_enclosed h.extends_ nodes⟩,
    le_rfl⟩
  refine h.closed.closeSelectionSet h.extends_.bases_le_opened h.resolves
    fun sel hsel inner hs => ?_
  have hle := h.inner_le sel hsel inner hs
  rw [nextSelectionSetId_openSelectionSet] at hle
  omega

theorem lowered_addField (h : a.Closed) (head : FieldHead) :
    a.Lowered [.field (a.addField head none).1] (a.addField head none).2 where
  extends_ := (Extends.refl a).addField head none
  closed := h.addField head none fun s hs => absurd hs (by simp)
  resolves sel hm := by
    obtain rfl := List.mem_singleton.1 hm
    exact ⟨_, field?_addField_self a head none⟩
  inner_le sel hm inner hs := by
    obtain rfl := List.mem_singleton.1 hm
    rw [innerSet?, field?_addField_self] at hs
    exact absurd hs (by simp)

theorem Enclosed.lowered_addField {set : SelectionSetId} (h : a.Enclosed set b)
    (head : FieldHead) :
    a.Lowered [.field (b.addField head (some set)).1] (b.addField head (some set)).2 where
  extends_ := h.extends_.addField head (some set)
  closed := h.closed.addField head (some set) fun s hs => Option.some.inj hs ▸ h.exists_set
  resolves sel hm := by
    obtain rfl := List.mem_singleton.1 hm
    exact ⟨_, field?_addField_self b head (some set)⟩
  inner_le sel hm inner hs := by
    obtain rfl := List.mem_singleton.1 hm
    rw [innerSet?, field?_addField_self] at hs
    exact Option.some.inj hs ▸ h.next_le

theorem Enclosed.lowered_addInlineFragment {set : SelectionSetId} (h : a.Enclosed set b)
    (head : InlineHead) :
    a.Lowered [.inlineFragment (b.addInlineFragment head set).1]
      (b.addInlineFragment head set).2 where
  extends_ := h.extends_.addInlineFragment head set
  closed := h.closed.addInlineFragment head set h.exists_set
  resolves sel hm := by
    obtain rfl := List.mem_singleton.1 hm
    exact ⟨_, inlineFragment?_addInlineFragment_self b head set⟩
  inner_le sel hm inner hs := by
    obtain rfl := List.mem_singleton.1 hm
    rw [innerSet?, inlineFragment?_addInlineFragment_self] at hs
    exact Option.some.inj hs ▸ h.next_le

theorem lowered_addSpread (h : a.Closed) (head : SpreadHead) :
    a.Lowered [.spread (a.addSpread head).1] (a.addSpread head).2 where
  extends_ := (Extends.refl a).addSpread head
  closed := h.addSpread head
  resolves sel hm := by
    obtain rfl := List.mem_singleton.1 hm
    exact ⟨_, spread?_addSpread_self a head⟩
  inner_le sel hm inner hs := by
    obtain rfl := List.mem_singleton.1 hm
    exact absurd hs (by simp [innerSet?])

mutual

/-- Lowering keeps an arena closed, one case for each form of selection. -/
theorem lowered_lowerSelection (a : SyntaxArena) (h : a.Closed) (s : Syntax.Selection) :
    a.Lowered [(a.lowerSelection s).1] (a.lowerSelection s).2 := by
  cases s with
  | field head p items =>
      rw [lowerSelection]
      by_cases hempty : items.isEmpty
      · rw [if_pos hempty]
        exact lowered_addField h head
      · rw [if_neg hempty]
        -- the set is opened, closed over its items, and then the field refers to it
        have hitems := lowered_lowerItems _ (h.openSelectionSet p) items
        exact hitems.enclosed.lowered_addField head
  | spread head =>
      rw [lowerSelection]
      exact lowered_addSpread h head
  | inlineFragment head p items =>
      rw [lowerSelection]
      have hitems := lowered_lowerItems _ (h.openSelectionSet p) items
      exact hitems.enclosed.lowered_addInlineFragment head

theorem lowered_lowerItems (a : SyntaxArena) (h : a.Closed) (items : List Syntax.Selection) :
    a.Lowered (a.lowerItems items).1 (a.lowerItems items).2 := by
  cases items with
  | nil =>
      rw [lowerItems]
      exact Lowered.nil h
  | cons s rest =>
      rw [lowerItems]
      have hs := lowered_lowerSelection a h s
      exact hs.cons (lowered_lowerItems _ hs.closed rest)

end

theorem enclosed_lowerSelectionSet (h : a.Closed) (s : Syntax.SelectionSet) :
    a.Enclosed (a.lowerSelectionSet s).1 (a.lowerSelectionSet s).2 :=
  (lowered_lowerItems _ (h.openSelectionSet s.position) s.items).enclosed

end SyntaxArena

/-! ## Documents -/

namespace Document

/-- The document is what some definitions were lowered to. -/
def Built (d : Document) : Prop := ∃ file definitions, build file definitions = .ok d

/-- The arena is closed, and holds the selection sets of all definitions. -/
structure Closed (d : Document) : Prop where
  arena : d.syntaxArena.Closed
  bases : d.syntaxArena.bases = ⟨0, 0, 0, 0⟩
  operation : ∀ o ∈ d.operations, ∃ set, d.syntaxArena.selectionSet? o.selectionSet = some set
  fragment : ∀ f ∈ d.fragments, ∃ set, d.syntaxArena.selectionSet? f.selectionSet = some set

theorem closed_empty (file : Option String) : (empty file).Closed where
  arena := SyntaxArena.closed_forDocument file
  bases := rfl
  operation _ h := absurd h List.not_mem_nil
  fragment _ h := absurd h List.not_mem_nil

theorem Closed.addDefinition {d : Document} (h : d.Closed) (e : ExecutableDefinition) :
    (d.addDefinition e).Closed := by
  cases e with
  | operation o =>
      have hset := SyntaxArena.enclosed_lowerSelectionSet h.arena o.selectionSet
      refine ⟨hset.closed, hset.extends_.bases.trans h.bases, ?_, ?_⟩
      · intro x hx
        rcases List.mem_append.1 hx with hx | hx
        · exact (h.operation x hx).imp fun _ => hset.extends_.selectionSet
        · obtain rfl := List.mem_singleton.1 hx
          exact hset.exists_set
      · exact fun x hx => (h.fragment x hx).imp fun _ => hset.extends_.selectionSet
  | fragment f =>
      have hset := SyntaxArena.enclosed_lowerSelectionSet h.arena f.selectionSet
      refine ⟨hset.closed, hset.extends_.bases.trans h.bases, ?_, ?_⟩
      · exact fun x hx => (h.operation x hx).imp fun _ => hset.extends_.selectionSet
      · intro x hx
        rcases List.mem_append.1 hx with hx | hx
        · exact (h.fragment x hx).imp fun _ => hset.extends_.selectionSet
        · obtain rfl := List.mem_singleton.1 hx
          exact hset.exists_set

/-- What holds of no definitions, and goes on to hold with every definition that is added,
holds of a lowered document. -/
theorem lower_induct {file : Option String} {definitions : ExecutableDocument}
    {P : ExecutableDocument → Document → Prop}
    (hempty : P [] (empty file))
    (hstep : ∀ before d x, P before d → P (before ++ [x]) (d.addDefinition x)) :
    P definitions (lower file definitions) := by
  have hloop : ∀ (rest before : ExecutableDocument) (d : Document), P before d →
      P (before ++ rest) (rest.foldl addDefinition d) := by
    intro rest
    induction rest with
    | nil =>
        intro before d hd
        rw [List.append_nil]
        exact hd
    | cons x rest ih =>
        intro before d hd
        have hrest := ih (before ++ [x]) _ (hstep before d x hd)
        rwa [List.append_assoc] at hrest
  exact hloop definitions [] (empty file) hempty

theorem closed_lower (file : Option String) (definitions : ExecutableDocument) :
    (lower file definitions).Closed :=
  lower_induct (P := fun _ d => d.Closed) (closed_empty file) fun _ _ x hd => hd.addDefinition x

/-- Nothing in a built document refers to what the document does not hold. -/
theorem Built.closed {d : Document} (h : d.Built) : d.Closed := by
  obtain ⟨file, definitions, hd⟩ := h
  simp only [build] at hd
  split at hd
  · cases hd
    exact closed_lower file definitions
  · cases hd

theorem operation_mem {d : Document} {name : Option String} {o : OperationNode}
    (h : d.operation name = .ok o) : o ∈ d.operations := by
  unfold operation at h
  split at h
  · split at h
    · cases h
      exact List.mem_of_find?_eq_some ‹_›
    · cases h
  · split at h
    · cases h
    · cases h
      simp [*]
    · cases h

end Document

end QueryPlan
