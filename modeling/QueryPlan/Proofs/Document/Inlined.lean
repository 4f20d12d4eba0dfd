import QueryPlan.Proofs.Document.Conflicts

/-!
# Documents without spreads

A spread stands for the fragment that it names. `Inlines` says what comes out when it is written
out: an inline fragment in the place of each spread, with the type condition of the fragment and
the directives of the spread, in whose selections spreads are written out in turn, until none is
left. Where a document can be indexed and all names that it spreads are defined, this comes to an
end (`exists_inlined`), and what comes out is a document that can be indexed again.
-/

set_option autoImplicit false

namespace QueryPlan

open QueryPlan.Syntax

namespace Syntax

/-! ## Writing out spreads -/

/-- The second selections are the first ones with all spreads written out. -/
inductive Selection.Inlines (definitions : ExecutableDocument) :
    List Selection → List Selection → Prop
  | nil : Inlines definitions [] []
  | field {head p items items' rest rest'} :
      Inlines definitions items items' → Inlines definitions rest rest' →
      Inlines definitions (.field head p items :: rest) (.field head p items' :: rest')
  | inlineFragment {head p items items' rest rest'} :
      Inlines definitions items items' → Inlines definitions rest rest' →
      Inlines definitions (.inlineFragment head p items :: rest)
        (.inlineFragment head p items' :: rest')
  | spread {head f p q items' rest rest'} :
      f ∈ definitions.fragments → f.name = head.name →
      Inlines definitions f.selectionSet.items items' → Inlines definitions rest rest' →
      Inlines definitions (.spread head :: rest)
        (.inlineFragment ⟨some f.typeCondition, head.directives, p⟩ q items' :: rest')

/-- The operation is another one with all spreads written out. -/
def OperationDefinition.Inlines (definitions : ExecutableDocument) (o o' : OperationDefinition) :
    Prop :=
  ∃ items, Selection.Inlines definitions o.selectionSet.items items ∧
    o' = { o with selectionSet := { o.selectionSet with items := items } }

/-- The fragment is another one with all spreads written out. -/
def FragmentDefinition.Inlines (definitions : ExecutableDocument) (f f' : FragmentDefinition) :
    Prop :=
  ∃ items, Selection.Inlines definitions f.selectionSet.items items ∧
    f' = { f with selectionSet := { f.selectionSet with items := items } }

inductive ExecutableDefinition.Inlines (definitions : ExecutableDocument) :
    ExecutableDefinition → ExecutableDefinition → Prop
  | operation {o o'} : o.Inlines definitions o' → Inlines definitions (.operation o) (.operation o')
  | fragment {f f'} : f.Inlines definitions f' → Inlines definitions (.fragment f) (.fragment f')

namespace ExecutableDocument

variable {definitions definitions' : ExecutableDocument}

/-- The second document is the first one with all spreads written out. -/
def Inlines (definitions definitions' : ExecutableDocument) : Prop :=
  List.Forall₂ (ExecutableDefinition.Inlines definitions) definitions definitions'

/-- All names that are spread in a document. -/
def spreadNames (definitions : ExecutableDocument) : List String :=
  definitions.operations.flatMap (·.selectionSet.spreadNames) ++
    definitions.fragments.flatMap (·.selectionSet.spreadNames)

/-- Definitions are written out one by one. -/
theorem Inlines.parts (h : definitions.Inlines definitions') :
    List.Forall₂ (OperationDefinition.Inlines definitions) definitions.operations
        definitions'.operations ∧
      List.Forall₂ (FragmentDefinition.Inlines definitions) definitions.fragments
        definitions'.fragments := by
  have hall : ∀ {xs ys : ExecutableDocument},
      List.Forall₂ (ExecutableDefinition.Inlines definitions) xs ys →
      List.Forall₂ (OperationDefinition.Inlines definitions) xs.operations ys.operations ∧
        List.Forall₂ (FragmentDefinition.Inlines definitions) xs.fragments ys.fragments := by
    intro xs ys hforall
    induction hforall with
    | nil => exact ⟨.nil, .nil⟩
    | cons hx _ ih =>
        cases hx with
        | operation ho => exact ⟨.cons ho ih.1, ih.2⟩
        | fragment hf => exact ⟨ih.1, .cons hf ih.2⟩
  exact hall h

end ExecutableDocument

/-! ## What is left -/

theorem Selection.Inlines.allSpreads_eq_nil {definitions : ExecutableDocument}
    {items items' : List Selection} (h : Inlines definitions items items') :
    allSpreads items' = [] := by
  induction h with
  | nil => rfl
  | field _ _ ih ih' => rw [allSpreads, spreads, ih, ih', List.append_nil]
  | inlineFragment _ _ ih ih' => rw [allSpreads, spreads, ih, ih', List.append_nil]
  | spread _ _ _ _ ih ih' => rw [allSpreads, spreads, ih, ih', List.append_nil]

theorem Selection.Inlines.spreadNames_eq_nil {definitions : ExecutableDocument}
    {s : SelectionSet} {items : List Selection} (h : Inlines definitions s.items items) :
    SelectionSet.spreadNames { s with items := items } = [] := by
  rw [SelectionSet.spreadNames, h.allSpreads_eq_nil, List.map_nil]

/-- No spread is left. -/
theorem ExecutableDocument.Inlines.spreadNames_eq_nil {definitions definitions' : ExecutableDocument}
    (h : definitions.Inlines definitions') : definitions'.spreadNames = [] := by
  obtain ⟨hoperations, hfragments⟩ := h.parts
  refine List.append_eq_nil_iff.2 ⟨List.flatMap_eq_nil_iff.2 fun o ho => ?_,
    List.flatMap_eq_nil_iff.2 fun f hf => ?_⟩
  · obtain ⟨_, -, _, hitems, rfl⟩ := exists_of_mem_right hoperations ho
    exact hitems.spreadNames_eq_nil
  · obtain ⟨_, -, _, hitems, rfl⟩ := exists_of_mem_right hfragments hf
    exact hitems.spreadNames_eq_nil

/-- The fragments keep their names. -/
theorem ExecutableDocument.Inlines.fragmentNames_eq {definitions definitions' : ExecutableDocument}
    (h : definitions.Inlines definitions') :
    definitions'.fragmentNames = definitions.fragmentNames := by
  refine (map_eq_of_forall₂ h.parts.2 fun f f' hf => ?_).symm
  obtain ⟨_, -, rfl⟩ := hf
  rfl

/-! ## Spreads can be written out -/

/-- The spread names a fragment in which all spreads can be written out. -/
def SpreadHead.Expands (definitions : ExecutableDocument) (head : SpreadHead) : Prop :=
  ∃ f ∈ definitions.fragments, f.name = head.name ∧
    ∃ items, Selection.Inlines definitions f.selectionSet.items items

mutual

/-- Where each spread in a selection can be written out, all of them can. -/
theorem Selection.exists_inlines {definitions : ExecutableDocument} (s : Selection)
    (h : ∀ head ∈ s.spreads, head.Expands definitions) {rest rest' : List Selection}
    (hrest : Inlines definitions rest rest') :
    ∃ items, Inlines definitions (s :: rest) items := by
  cases s with
  | field head p items =>
      obtain ⟨items', hitems⟩ := exists_inlines_all items h
      exact ⟨_, .field hitems hrest⟩
  | spread head =>
      obtain ⟨f, hf, hname, items', hitems⟩ := h head (List.mem_singleton_self head)
      exact ⟨_, .spread (p := head.position) (q := head.position) hf hname hitems hrest⟩
  | inlineFragment head p items =>
      obtain ⟨items', hitems⟩ := exists_inlines_all items h
      exact ⟨_, .inlineFragment hitems hrest⟩

theorem Selection.exists_inlines_all {definitions : ExecutableDocument} (items : List Selection)
    (h : ∀ head ∈ allSpreads items, head.Expands definitions) :
    ∃ items', Inlines definitions items items' := by
  cases items with
  | nil => exact ⟨[], .nil⟩
  | cons s rest =>
      rw [allSpreads, List.forall_mem_append] at h
      obtain ⟨rest', hrest⟩ := exists_inlines_all rest h.2
      exact exists_inlines s h.1 hrest

end

namespace ExecutableDocument

variable {definitions : ExecutableDocument}

/-- Where spreads lead only down an order, all of them can be written out. -/
theorem exists_inlines_of_order {order : String → Nat}
    (horder : ∀ name name', definitions.Spreads name name' → order name' < order name)
    (hdefined : definitions.spreadNames ⊆ definitions.fragmentNames) :
    ∃ definitions', definitions.Inlines definitions' := by
  have hbody : ∀ n, ∀ f ∈ definitions.fragments, order f.name < n →
      ∃ items, Selection.Inlines definitions f.selectionSet.items items := by
    intro n
    induction n with
    | zero => exact fun _ _ hlt => absurd hlt (Nat.not_lt_zero _)
    | succ n ih =>
        intro f hf hlt
        refine Selection.exists_inlines_all _ fun head hhead => ?_
        have hspread : head.name ∈ f.selectionSet.spreadNames := List.mem_map_of_mem hhead
        have hname : head.name ∈ definitions.fragmentNames :=
          hdefined (List.mem_append_right _ (List.mem_flatMap.2 ⟨f, hf, hspread⟩))
        obtain ⟨f', hf', hname'⟩ := List.mem_map.1 hname
        -- the fragment that is spread comes before this one
        have hdown := horder f.name head.name ⟨⟨f, hf, rfl, hspread⟩, hname⟩
        exact ⟨f', hf', hname', ih f' hf' (by rw [hname']; omega)⟩
  have hset : ∀ s : SelectionSet, s.spreadNames ⊆ definitions.fragmentNames →
      ∃ items, Selection.Inlines definitions s.items items := by
    intro s hs
    refine Selection.exists_inlines_all _ fun head hhead => ?_
    obtain ⟨f, hf, hname⟩ := List.mem_map.1 (hs (List.mem_map_of_mem hhead))
    exact ⟨f, hf, hname, hbody _ f hf (Nat.lt_succ_self _)⟩
  have hone : ∀ x ∈ definitions, ∃ x', ExecutableDefinition.Inlines definitions x x' := by
    intro x hx
    cases x with
    | operation o =>
        have ho : o ∈ definitions.operations := List.mem_filterMap.2 ⟨_, hx, rfl⟩
        obtain ⟨items, hitems⟩ := hset o.selectionSet fun name hname =>
          hdefined (List.mem_append_left _ (List.mem_flatMap.2 ⟨o, ho, hname⟩))
        exact ⟨_, .operation ⟨items, hitems, rfl⟩⟩
    | fragment f =>
        have hf : f ∈ definitions.fragments := List.mem_filterMap.2 ⟨_, hx, rfl⟩
        obtain ⟨items, hitems⟩ := hbody _ f hf (Nat.lt_succ_self _)
        exact ⟨_, .fragment ⟨items, hitems, rfl⟩⟩
  exact exists_forall₂ hone

end ExecutableDocument

end Syntax

/-! ## Documents that are built from them -/

namespace Document

variable {file : Option String} {definitions definitions' : ExecutableDocument} {d : Document}

/-- Without spreads a document is built as it is with them. -/
theorem exists_build_inlined (hd : build file definitions = .ok d)
    (h : definitions.Inlines definitions') : ∃ d', build file definitions' = .ok d' := by
  have hnames : definitions.operations.map (·.name) = definitions'.operations.map (·.name) := by
    refine map_eq_of_forall₂ h.parts.1 fun o o' ho => ?_
    obtain ⟨_, -, rfl⟩ := ho
    rfl
  exact (exists_build_congr hnames).1 ⟨d, hd⟩

end Document

namespace FragmentIndex

variable {file : Option String} {definitions definitions' : ExecutableDocument}
  {d d' : Document} {index : FragmentIndex}

/-- Spreads lead down an order where the document can be indexed. -/
theorem exists_order_of_spreads (hd : Document.build file definitions = .ok d)
    (hindex : build d = .ok index) :
    ∃ order : String → Nat,
      ∀ name name', definitions.Spreads name name' → order name' < order name := by
  obtain ⟨-, hnone, hcycles⟩ := build_eq_ok_iff.1 hindex
  obtain ⟨order, horder⟩ := exists_order hcycles
  refine ⟨order, fun name name' hspreads => ?_⟩
  obtain ⟨⟨names, hnames, hmem⟩, hknown⟩ :=
    (leads_iff_spreads (Document.Built.closed ⟨file, definitions, hd⟩)
      (Document.stored_of_build hd) hnone).2 hspreads
  exact horder hnames hmem hknown

/-- Without spreads the document can be indexed. -/
theorem exists_index_inlined (hd : Document.build file definitions = .ok d)
    (hindex : build d = .ok index) (h : definitions.Inlines definitions')
    (hd' : Document.build file definitions' = .ok d') : ∃ index', build d' = .ok index' := by
  obtain ⟨hnodup, -⟩ := (exists_index_iff hd).1 ⟨index, hindex⟩
  refine (exists_index_iff hd').2 ⟨h.fragmentNames_eq ▸ hnodup, fun name hloop => ?_⟩
  -- nothing spreads anything any more
  obtain ⟨next, ⟨⟨f, hf, -, hmem⟩, -⟩, -⟩ := Relation.TransGen.head'_iff.1 hloop
  have hspread : next ∈ definitions'.spreadNames :=
    List.mem_append_right _ (List.mem_flatMap.2 ⟨f, hf, hmem⟩)
  rw [h.spreadNames_eq_nil] at hspread
  exact absurd hspread List.not_mem_nil

end FragmentIndex

end QueryPlan
