import QueryPlan.Proofs.Document.Inlined

/-!
# Documents in which a selection is repeated

Copying a selection to a place behind it, within the same selection set, gives another document
(`ExecutableDocument.Repeats`). In a text the copy has positions of its own and moves those of
what follows it; documents are therefore compared without them. A document with a copy spreads
nothing that was not spread before, so it can be built and indexed where the original can be.
-/

set_option autoImplicit false

namespace QueryPlan

open QueryPlan.Syntax

namespace Syntax

/-! ## Documents without positions -/

def Directive.placeless (d : Directive) : Directive := { d with position := .start }

def FieldHead.placeless (h : FieldHead) : FieldHead :=
  { h with directives := h.directives.map (·.placeless), position := .start }

def SpreadHead.placeless (h : SpreadHead) : SpreadHead :=
  { h with directives := h.directives.map (·.placeless), position := .start }

def InlineHead.placeless (h : InlineHead) : InlineHead :=
  { h with directives := h.directives.map (·.placeless), position := .start }

mutual

def Selection.placeless : Selection → Selection
  | .field head _ items => .field head.placeless .start (Selection.allPlaceless items)
  | .spread head => .spread head.placeless
  | .inlineFragment head _ items =>
    .inlineFragment head.placeless .start (Selection.allPlaceless items)

def Selection.allPlaceless : List Selection → List Selection
  | [] => []
  | s :: rest => s.placeless :: Selection.allPlaceless rest

end

def SelectionSet.placeless (s : SelectionSet) : SelectionSet :=
  ⟨.start, Selection.allPlaceless s.items⟩

def VariableDefinition.placeless (v : VariableDefinition) : VariableDefinition :=
  { v with position := .start }

def OperationDefinition.placeless (o : OperationDefinition) : OperationDefinition :=
  { o with
    variableDefinitions := o.variableDefinitions.map (·.placeless)
    directives := o.directives.map (·.placeless)
    selectionSet := o.selectionSet.placeless
    position := .start }

def FragmentDefinition.placeless (f : FragmentDefinition) : FragmentDefinition :=
  { f with
    directives := f.directives.map (·.placeless)
    selectionSet := f.selectionSet.placeless
    position := .start }

def ExecutableDefinition.placeless : ExecutableDefinition → ExecutableDefinition
  | .operation o => .operation o.placeless
  | .fragment f => .fragment f.placeless

/-- The document, wherever its parts stand in a text. -/
def ExecutableDocument.placeless (definitions : ExecutableDocument) : ExecutableDocument :=
  definitions.map (·.placeless)

/-! ## Repeated selections -/

/-- The second selections are the first ones with one more: a copy of one of them, which stands
somewhere behind it in the same selection set, be it this one or one that is nested in it. -/
inductive Selection.Repeats : List Selection → List Selection → Prop
  | copy {before s between after} :
      Repeats (before ++ s :: (between ++ after)) (before ++ s :: (between ++ s :: after))
  | field {before head p items items' after} :
      Repeats items items' →
      Repeats (before ++ .field head p items :: after) (before ++ .field head p items' :: after)
  | inlineFragment {before head p items items' after} :
      Repeats items items' →
      Repeats (before ++ .inlineFragment head p items :: after)
        (before ++ .inlineFragment head p items' :: after)

/-- A selection is repeated in an operation or in a fragment. -/
inductive ExecutableDefinition.Repeats : ExecutableDefinition → ExecutableDefinition → Prop
  | operation {o items'} :
      Selection.Repeats o.selectionSet.items items' →
      Repeats (.operation o)
        (.operation { o with selectionSet := { o.selectionSet with items := items' } })
  | fragment {f items'} :
      Selection.Repeats f.selectionSet.items items' →
      Repeats (.fragment f)
        (.fragment { f with selectionSet := { f.selectionSet with items := items' } })

/-- A selection is repeated in one definition of the document. -/
def ExecutableDocument.Repeats (definitions definitions' : ExecutableDocument) : Prop :=
  ∃ before x x' after, definitions = before ++ x :: after ∧ definitions' = before ++ x' :: after ∧
    x.Repeats x'

/-- Selections in which at most one is repeated. -/
abbrev Selection.MayRepeat : List Selection → List Selection → Prop :=
  Relation.ReflGen Selection.Repeats

/-- The operation is another one in which a selection may be repeated. -/
def OperationDefinition.MayRepeat (o o' : OperationDefinition) : Prop :=
  ∃ items, Selection.MayRepeat o.selectionSet.items items ∧
    o' = { o with selectionSet := { o.selectionSet with items := items } }

/-- The fragment is another one in which a selection may be repeated. -/
def FragmentDefinition.MayRepeat (f f' : FragmentDefinition) : Prop :=
  ∃ items, Selection.MayRepeat f.selectionSet.items items ∧
    f' = { f with selectionSet := { f.selectionSet with items := items } }

theorem OperationDefinition.mayRepeat_refl (o : OperationDefinition) : o.MayRepeat o :=
  ⟨o.selectionSet.items, .refl, rfl⟩

theorem FragmentDefinition.mayRepeat_refl (f : FragmentDefinition) : f.MayRepeat f :=
  ⟨f.selectionSet.items, .refl, rfl⟩

namespace ExecutableDocument

variable {definitions definitions' : ExecutableDocument}

/-- Definitions correspond one by one. -/
theorem Repeats.parts (h : definitions.Repeats definitions') :
    List.Forall₂ OperationDefinition.MayRepeat definitions.operations definitions'.operations ∧
      List.Forall₂ FragmentDefinition.MayRepeat definitions.fragments definitions'.fragments := by
  obtain ⟨before, x, x', after, rfl, rfl, hx⟩ := h
  have hops : ∀ ds : ExecutableDocument,
      List.Forall₂ OperationDefinition.MayRepeat ds.operations ds.operations := fun ds =>
    List.forall₂_same.2 fun o _ => o.mayRepeat_refl
  have hfragments : ∀ ds : ExecutableDocument,
      List.Forall₂ FragmentDefinition.MayRepeat ds.fragments ds.fragments := fun ds =>
    List.forall₂_same.2 fun f _ => f.mayRepeat_refl
  rw [operations_append, operations_append, fragments_append, fragments_append]
  cases hx with
  | operation hitems =>
      exact ⟨List.rel_append (hops before) (.cons ⟨_, .single hitems, rfl⟩ (hops after)),
        List.rel_append (hfragments before) (hfragments after)⟩
  | fragment hitems =>
      exact ⟨List.rel_append (hops before) (hops after),
        List.rel_append (hfragments before) (.cons ⟨_, .single hitems, rfl⟩ (hfragments after))⟩

end ExecutableDocument

/-! ## Spreads -/

theorem Selection.allSpreads_append (xs ys : List Selection) :
    allSpreads (xs ++ ys) = allSpreads xs ++ allSpreads ys := by
  induction xs with
  | nil => rfl
  | cons x xs ih => rw [List.cons_append, allSpreads, allSpreads, ih, List.append_assoc]

/-- Nothing is spread that was not spread before. -/
theorem Selection.Repeats.allSpreads_subset {items items' : List Selection}
    (h : Repeats items items') : allSpreads items' ⊆ allSpreads items := by
  have hbelow : ∀ {before s s' after}, s'.spreads ⊆ s.spreads →
      allSpreads (before ++ s' :: after) ⊆ allSpreads (before ++ s :: after) := by
    intro before s s' after hsub head hhead
    rw [allSpreads_append, allSpreads, List.mem_append, List.mem_append] at hhead ⊢
    exact hhead.imp_right fun h => h.imp_left fun h => hsub h
  induction h with
  | @copy before s between after =>
      intro head hhead
      simp only [allSpreads_append, allSpreads, List.mem_append] at hhead ⊢
      rcases hhead with h | h | h | h | h
      · exact Or.inl h
      · exact Or.inr (Or.inl h)
      · exact Or.inr (Or.inr (Or.inl h))
      · exact Or.inr (Or.inl h)
      · exact Or.inr (Or.inr (Or.inr h))
  | field _ ih => exact hbelow ih
  | inlineFragment _ ih => exact hbelow ih

mutual

/-- Positions have nothing to do with what is spread. -/
theorem Selection.names_spreads_placeless (s : Selection) :
    s.placeless.spreads.map (·.name) = s.spreads.map (·.name) := by
  cases s with
  | field head p items => exact names_allSpreads_placeless items
  | spread head => rfl
  | inlineFragment head p items => exact names_allSpreads_placeless items

theorem Selection.names_allSpreads_placeless (items : List Selection) :
    (allSpreads (allPlaceless items)).map (·.name) = (allSpreads items).map (·.name) := by
  cases items with
  | nil => rfl
  | cons s rest =>
      rw [allPlaceless, allSpreads, allSpreads, List.map_append, List.map_append,
        names_spreads_placeless s, names_allSpreads_placeless rest]

end

namespace ExecutableDocument

variable {definitions definitions' : ExecutableDocument}

theorem operations_placeless (definitions : ExecutableDocument) :
    definitions.placeless.operations = definitions.operations.map (·.placeless) := by
  rw [placeless, operations, operations, List.filterMap_map, List.map_filterMap]
  refine List.filterMap_congr fun x _ => ?_
  cases x with
  | operation o => rfl
  | fragment f => rfl

theorem fragments_placeless (definitions : ExecutableDocument) :
    definitions.placeless.fragments = definitions.fragments.map (·.placeless) := by
  rw [placeless, fragments, fragments, List.filterMap_map, List.map_filterMap]
  refine List.filterMap_congr fun x _ => ?_
  cases x with
  | operation o => rfl
  | fragment f => rfl

theorem fragmentNames_placeless (definitions : ExecutableDocument) :
    definitions.placeless.fragmentNames = definitions.fragmentNames := by
  rw [fragmentNames, fragments_placeless, List.map_map]
  rfl

theorem spreads_placeless : definitions.placeless.Spreads = definitions.Spreads := by
  funext name name'
  refine propext (and_congr ?_ (by rw [fragmentNames_placeless]))
  have hnames : ∀ f : FragmentDefinition,
      f.placeless.selectionSet.spreadNames = f.selectionSet.spreadNames := fun f =>
    Selection.names_allSpreads_placeless f.selectionSet.items
  rw [fragments_placeless]
  constructor
  · rintro ⟨_, hplaceless, hname, hmem⟩
    obtain ⟨f, hf, rfl⟩ := List.mem_map.1 hplaceless
    exact ⟨f, hf, hname, hnames f ▸ hmem⟩
  · rintro ⟨f, hf, hname, hmem⟩
    exact ⟨f.placeless, List.mem_map_of_mem hf, hname, (hnames f).symm ▸ hmem⟩

/-- The names of the operations are the same. -/
theorem Repeats.operationNames_eq (h : definitions.Repeats definitions') :
    definitions.operations.map (·.name) = definitions'.operations.map (·.name) := by
  refine map_eq_of_forall₂ h.parts.1 fun o o' ho => ?_
  obtain ⟨_, -, rfl⟩ := ho
  rfl

theorem Repeats.fragmentNames_eq (h : definitions.Repeats definitions') :
    definitions'.fragmentNames = definitions.fragmentNames := by
  refine (map_eq_of_forall₂ h.parts.2 fun f f' hf => ?_).symm
  obtain ⟨_, -, rfl⟩ := hf
  rfl

/-- Spreads lead nowhere else. -/
theorem Repeats.spreads (h : definitions.Repeats definitions') {name name' : String}
    (hs : definitions'.Spreads name name') : definitions.Spreads name name' := by
  obtain ⟨⟨f', hf', hname, hmem⟩, hknown⟩ := hs
  obtain ⟨f, hf, items, hitems, rfl⟩ := exists_of_mem_right h.parts.2 hf'
  refine ⟨⟨f, hf, hname, ?_⟩, h.fragmentNames_eq ▸ hknown⟩
  refine List.map_subset _ ?_ hmem
  cases hitems with
  | refl => exact List.Subset.refl _
  | single hitems => exact hitems.allSpreads_subset

end ExecutableDocument

end Syntax

/-! ## Documents that are built from them -/

variable {file : Option String} {definitions definitions' : ExecutableDocument} {d d' : Document}

/-- Where a document is built, so is one with a selection repeated. -/
theorem Document.exists_build_repeated (hd : build file definitions = .ok d)
    (h : definitions.placeless.Repeats definitions'.placeless) :
    ∃ d', build file definitions' = .ok d' := by
  have hnames : definitions.operations.map (·.name) = definitions'.operations.map (·.name) := by
    have hsame := h.operationNames_eq
    rwa [ExecutableDocument.operations_placeless, ExecutableDocument.operations_placeless,
      List.map_map, List.map_map] at hsame
  exact (exists_build_congr hnames).1 ⟨d, hd⟩

/-- Where a document is indexed, so is one with a selection repeated. -/
theorem FragmentIndex.exists_index_repeated (hd : Document.build file definitions = .ok d)
    (hindex : ∃ index, build d = .ok index)
    (h : definitions.placeless.Repeats definitions'.placeless)
    (hd' : Document.build file definitions' = .ok d') : ∃ index', build d' = .ok index' := by
  obtain ⟨hnodup, hacyclic⟩ := (exists_index_iff hd).1 hindex
  have hspreads : definitions'.Spreads ≤ definitions.Spreads := by
    intro name name' hs
    rw [← ExecutableDocument.spreads_placeless] at hs ⊢
    exact h.spreads hs
  refine (exists_index_iff hd').2
    ⟨?_, fun name hloop => hacyclic name (Relation.TransGen.mono hspreads _ _ hloop)⟩
  rwa [← ExecutableDocument.fragmentNames_placeless, h.fragmentNames_eq,
    ExecutableDocument.fragmentNames_placeless]

/-! ## What is stored, wherever it stood -/

theorem map_content_placeless (ds : List Directive) :
    (ds.map (·.placeless)).map (·.content) = ds.map (·.content) := by
  rw [List.map_map]
  rfl

theorem SyntaxArena.Stores.placeless {a : SyntaxArena} {nodes : List SelectionNode}
    {items : List Syntax.Selection} (h : a.Stores nodes items) :
    a.Stores nodes (Selection.allPlaceless items) := by
  induction h with
  | nil => exact .nil
  | leaf hn hhead hset _ ih =>
      exact .leaf hn ⟨hhead.aliasName, hhead.name, hhead.arguments,
        hhead.directives.trans (map_content_placeless _).symm⟩ hset ih
  | @field _ _ _ _ _ _ _ items _ hn hhead hinner hitems hset _ _ ih ih' =>
      refine .field hn ⟨hhead.aliasName, hhead.name, hhead.arguments,
        hhead.directives.trans (map_content_placeless _).symm⟩ hinner ?_ hset ih ih'
      cases items with
      | nil => exact absurd rfl hitems
      | cons s rest => exact List.cons_ne_nil _ _
  | spread hn hhead _ ih =>
      exact .spread hn ⟨hhead.fragmentName,
        hhead.directives.trans (map_content_placeless _).symm⟩ ih
  | inlineFragment hn hhead hset _ _ ih ih' =>
      exact .inlineFragment hn ⟨hhead.typeCondition,
        hhead.directives.trans (map_content_placeless _).symm⟩ hset ih ih'

/-- A document stores what it was made from, wherever that stood. -/
theorem Document.Stores.placeless (h : d.Stores definitions) : d.Stores definitions.placeless where
  operations := by
    rw [ExecutableDocument.operations_placeless, List.forall₂_map_right_iff]
    refine h.operations.imp fun node o ho => ⟨ho.kind, ho.name, ?_, ?_⟩
    · rw [OperationDefinition.placeless, List.forall₂_map_right_iff]
      exact ho.variableDefinitions
    · obtain ⟨set, hset, hstores⟩ := ho.selectionSet
      exact ⟨set, hset, hstores.placeless⟩
  fragments := by
    rw [ExecutableDocument.fragments_placeless, List.forall₂_map_right_iff]
    refine h.fragments.imp fun node f hf => ⟨hf.name, hf.typeCondition, ?_⟩
    obtain ⟨set, hset, hstores⟩ := hf.selectionSet
    exact ⟨set, hset, hstores.placeless⟩

end QueryPlan
