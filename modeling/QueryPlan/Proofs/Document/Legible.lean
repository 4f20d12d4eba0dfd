import QueryPlan.Proofs.Plan.Synthetic
import QueryPlan.Proofs.Syntax.Legible

/-!
# Names in documents are on one line

Lowering keeps names as they were written, so in a document that was read from a text, and in all
syntax that is put in while planning, no name holds a line feed (`Document.legible_of_source`,
`SyntaxArena.legible_runSteps`).
-/

set_option autoImplicit false

namespace QueryPlan

open QueryPlan.Syntax QueryPlan.Text

/-! ## Nodes -/

def DirectiveNode.Legible (d : DirectiveNode) : Prop := d.arguments.Legible

structure FieldNode.Legible (node : FieldNode) : Prop where
  aliasName : ∀ n ∈ node.aliasName, OneLine n
  name : OneLine node.name
  arguments : node.arguments.Legible
  directives : ∀ d ∈ node.directives, d.Legible

theorem FieldNode.Legible.responseKey {node : FieldNode} (h : node.Legible) :
    OneLine node.responseKey := by
  unfold FieldNode.responseKey
  cases halias : node.aliasName with
  | none => exact h.name
  | some n => exact h.aliasName n halias

def SpreadNode.Legible (node : SpreadNode) : Prop := ∀ d ∈ node.directives, d.Legible

structure InlineFragmentNode.Legible (node : InlineFragmentNode) : Prop where
  typeCondition : ∀ t ∈ node.typeCondition, OneLine t
  directives : ∀ d ∈ node.directives, d.Legible

structure VariableNode.Legible (v : VariableNode) : Prop where
  name : OneLine v.name
  type : OneLine v.type.text
  default : ∀ d ∈ v.default, d.Legible

structure OperationNode.Legible (o : OperationNode) : Prop where
  name : ∀ n ∈ o.name, OneLine n
  variableDefinitions : ∀ v ∈ o.variableDefinitions, v.Legible

/-! ## Arenas -/

structure SyntaxArena.Legible (a : SyntaxArena) : Prop where
  field : ∀ node ∈ a.fields, node.Legible
  spread : ∀ node ∈ a.spreads, node.Legible
  inlineFragment : ∀ node ∈ a.inlineFragments, node.Legible

namespace SyntaxArena

variable {a : SyntaxArena}

theorem forall_mem_push {α : Type} {P : α → Prop} {items : Array α} {x : α}
    (h : ∀ y ∈ items, P y) (hx : P x) : ∀ y ∈ items.push x, P y := by
  intro y hy
  rcases Array.mem_push.1 hy with hy | rfl
  · exact h y hy
  · exact hx

theorem legible_forDocument (file : Option String) : (forDocument file).Legible :=
  ⟨fun _ h => absurd h (Array.not_mem_empty _), fun _ h => absurd h (Array.not_mem_empty _),
    fun _ h => absurd h (Array.not_mem_empty _)⟩

theorem legible_syntheticAfter (a : SyntaxArena) : a.syntheticAfter.Legible :=
  ⟨fun _ h => absurd h (Array.not_mem_empty _), fun _ h => absurd h (Array.not_mem_empty _),
    fun _ h => absurd h (Array.not_mem_empty _)⟩

theorem legible_lowerDirectives (a : SyntaxArena) {ds : List Directive}
    (h : ∀ d ∈ ds, d.Legible) : ∀ d ∈ a.lowerDirectives ds, d.Legible := by
  intro d hd
  obtain ⟨d', hd', rfl⟩ := List.mem_map.1 hd
  exact h d' hd'

theorem Legible.addField (h : a.Legible) {head : FieldHead} (hhead : head.Legible)
    (set : Option SelectionSetId) : (a.addField head set).2.Legible where
  field := forall_mem_push h.field
    ⟨hhead.aliasName, hhead.name, hhead.arguments, a.legible_lowerDirectives hhead.directives⟩
  spread := h.spread
  inlineFragment := h.inlineFragment

theorem Legible.addSpread (h : a.Legible) {head : SpreadHead} (hhead : head.Legible) :
    (a.addSpread head).2.Legible where
  field := h.field
  spread := forall_mem_push h.spread (a.legible_lowerDirectives hhead)
  inlineFragment := h.inlineFragment

theorem Legible.addInlineFragment (h : a.Legible) {head : InlineHead} (hhead : head.Legible)
    (set : SelectionSetId) : (a.addInlineFragment head set).2.Legible where
  field := h.field
  spread := h.spread
  inlineFragment := forall_mem_push h.inlineFragment
    ⟨hhead.typeCondition, a.legible_lowerDirectives hhead.directives⟩

/-- Selection sets have no names. -/
theorem Legible.of_sets {b : SyntaxArena} (h : a.Legible) (hfields : b.fields = a.fields)
    (hspreads : b.spreads = a.spreads) (hinline : b.inlineFragments = a.inlineFragments) :
    b.Legible :=
  ⟨hfields ▸ h.field, hspreads ▸ h.spread, hinline ▸ h.inlineFragment⟩

theorem Legible.openSelectionSet (h : a.Legible) (p : Position) :
    (a.openSelectionSet p).2.Legible :=
  h.of_sets rfl rfl rfl

theorem Legible.closeSelectionSet (h : a.Legible) (set : SelectionSetId)
    (nodes : List SelectionNode) : (a.closeSelectionSet set nodes).Legible :=
  h.of_sets rfl rfl rfl

mutual

theorem legible_lowerSelection {a : SyntaxArena} (h : a.Legible) {s : Syntax.Selection}
    (hs : s.Legible) : (a.lowerSelection s).2.Legible := by
  cases hs with
  | @field head p items hhead hitems =>
      rw [lowerSelection]
      by_cases hempty : items.isEmpty
      · rw [if_pos hempty]
        exact h.addField hhead none
      · rw [if_neg hempty]
        exact ((legible_lowerItems (h.openSelectionSet p) hitems).closeSelectionSet _ _).addField hhead _
  | spread hhead =>
      rw [lowerSelection]
      exact h.addSpread hhead
  | @inlineFragment head p items hhead hitems =>
      rw [lowerSelection]
      exact ((legible_lowerItems (h.openSelectionSet p) hitems).closeSelectionSet _ _).addInlineFragment hhead _

theorem legible_lowerItems {a : SyntaxArena} (h : a.Legible) {items : List Syntax.Selection}
    (hitems : ∀ s ∈ items, s.Legible) : (a.lowerItems items).2.Legible := by
  cases items with
  | nil =>
      rw [lowerItems]
      exact h
  | cons s rest =>
      rw [List.forall_mem_cons] at hitems
      rw [lowerItems]
      exact legible_lowerItems (legible_lowerSelection h hitems.1) hitems.2

end

theorem Legible.lowerSelectionSet (h : a.Legible) {s : Syntax.SelectionSet} (hs : s.Legible) :
    (a.lowerSelectionSet s).2.Legible :=
  (legible_lowerItems (h.openSelectionSet s.position) hs).closeSelectionSet _ _

/-! ## Syntax that is put in -/

theorem legible_fieldOfSource {source : String} {s : Syntax.Selection}
    (h : fieldOfSource source = .ok s) : s.Legible := by
  unfold fieldOfSource at h
  split at h
  · cases h
  · next o hsource =>
      have ho : o.Legible := ExecutableDocument.legible_of_source hsource _ List.mem_cons_self
      split at h
      · next hitems =>
          cases h
          exact ho.selectionSet _ (hitems ▸ List.mem_cons_self)
      · cases h
  · cases h

theorem Legible.step (h : a.Legible) (step : SyntheticStep) : (step.run a).Legible := by
  cases step with
  | lower source =>
      rcases a.lowerFieldSource_cases source with ⟨e, heq⟩ | ⟨s, id, b, hsource, hlower, heq⟩
      · rw [SyntheticStep.run, heq]
        exact h
      · have hb := legible_lowerSelection h (legible_fieldOfSource hsource)
        rw [hlower] at hb
        rw [SyntheticStep.run, heq]
        exact hb
  | copy node => exact h.of_sets rfl rfl rfl

theorem legible_runSteps (a : SyntaxArena) (steps : List SyntheticStep) :
    (a.syntheticAfter.runSteps steps).Legible :=
  runSteps_induct (fun _ step h => h.step step) a.legible_syntheticAfter steps

end SyntaxArena

/-! ## Views -/

/-- No name in view holds a line feed. -/
structure SyntaxView.Legible (v : SyntaxView) : Prop where
  field : ∀ {id node}, v.field? id = some node → node.Legible
  spread : ∀ {id node}, v.spread? id = some node → node.Legible
  inlineFragment : ∀ {id node}, v.inlineFragment? id = some node → node.Legible

theorem SyntaxView.legible_of_arenas {document synthetic : SyntaxArena}
    (hdocument : document.Legible) (hsynthetic : synthetic.Legible) :
    SyntaxView.Legible ⟨document, synthetic⟩ := by
  have hmem : ∀ {α : Type} {P : α → Prop} {base base' index : Nat} {items items' : Array α} {x : α},
      (∀ y ∈ items, P y) → (∀ y ∈ items', P y) →
      (SyntaxArena.atIndex? base items index <|> SyntaxArena.atIndex? base' items' index) = some x →
      P x := by
    intro α P base base' index items items' x hitems hitems' hx
    rw [Option.orElse_eq_orElse, Option.orElse_eq_or] at hx
    rcases Option.or_eq_some_iff.1 hx with hx | ⟨-, hx⟩
    · exact hitems x (SyntaxArena.mem_iff_atIndex?.2 ⟨index, hx⟩)
    · exact hitems' x (SyntaxArena.mem_iff_atIndex?.2 ⟨index, hx⟩)
  exact ⟨hmem hdocument.field hsynthetic.field, hmem hdocument.spread hsynthetic.spread,
    hmem hdocument.inlineFragment hsynthetic.inlineFragment⟩

/-! ## Documents -/

theorem TypeAnnotation.oneLine_ofTypeRefWith {t : TypeRef} (h : OneLine t.text) (nullable : Bool) :
    OneLine (ofTypeRefWith t nullable).text := by
  have hmark : ∀ n : Bool, breaks (mark n) = 0 := by decide
  induction t generalizing nullable with
  | named name =>
      show breaks (name ++ mark nullable) = 0
      rw [breaks_append, hmark]
      exact h
  | list item ih =>
      have hlist : breaks ("[" ++ item.text ++ "]") = 0 := h
      rw [breaks_append, breaks_append] at hlist
      have hitem : OneLine (ofTypeRefWith item true).text := by
        refine ih ?_ true
        show breaks item.text = 0
        omega
      show breaks ("[" ++ (ofTypeRefWith item true).text ++ "]" ++
        mark nullable) = 0
      rw [breaks_append, breaks_append, breaks_append, hitem, hmark]
      rfl
  | nonNull inner ih =>
      have hinner : breaks (inner.text ++ "!") = 0 := h
      rw [breaks_append] at hinner
      refine ih ?_ false
      show breaks inner.text = 0
      omega

namespace Document

structure Legible (d : Document) : Prop where
  arena : d.syntaxArena.Legible
  operation : ∀ o ∈ d.operations, o.Legible
  fragment : ∀ f ∈ d.fragments, OneLine f.typeCondition

theorem legible_empty (file : Option String) : (empty file).Legible :=
  ⟨SyntaxArena.legible_forDocument file, fun _ h => absurd h List.not_mem_nil,
    fun _ h => absurd h List.not_mem_nil⟩

theorem Legible.addDefinition {d : Document} (h : d.Legible) {x : ExecutableDefinition}
    (hx : x.Legible) : (d.addDefinition x).Legible := by
  cases x with
  | operation o =>
      have ho : o.Legible := hx
      refine ⟨h.arena.lowerSelectionSet ho.selectionSet, ?_, h.fragment⟩
      refine List.forall_mem_append.2 ⟨h.operation, List.forall_mem_singleton.2 ⟨ho.name, ?_⟩⟩
      intro v hv
      obtain ⟨definition, hdefinition, rfl⟩ := List.mem_map.1 hv
      have hv := ho.variableDefinitions definition hdefinition
      exact ⟨hv.name, TypeAnnotation.oneLine_ofTypeRefWith hv.type true, hv.default⟩
  | fragment f =>
      have hf : f.Legible := hx
      refine ⟨h.arena.lowerSelectionSet hf.selectionSet, h.operation, ?_⟩
      exact List.forall_mem_append.2 ⟨h.fragment, List.forall_mem_singleton.2 hf.typeCondition⟩

theorem legible_lower {file : Option String} {definitions : ExecutableDocument}
    (h : definitions.Legible) : (lower file definitions).Legible := by
  refine lower_induct (P := fun ds d => ds.Legible → d.Legible) (fun _ => legible_empty file)
    (fun before d x hd hlegible => ?_) h
  obtain ⟨hbefore, hx⟩ := List.forall_mem_append.1 hlegible
  exact (hd hbefore).addDefinition (hx x List.mem_cons_self)

/-- The document of a text was built from what the text is read as. -/
theorem exists_definitions {file : Option String} {source : String} {d : Document}
    (h : ofSource file source = .ok d) :
    ∃ definitions, ExecutableDocument.ofSource? source = some definitions ∧
      build file definitions = .ok d := by
  unfold ofSource at h
  split at h
  · cases h
  · next definitions hsource => exact ⟨definitions, hsource, h⟩

theorem built_of_source {file : Option String} {source : String} {d : Document}
    (h : ofSource file source = .ok d) : d.Built := by
  obtain ⟨definitions, -, hbuild⟩ := exists_definitions h
  exact ⟨file, definitions, hbuild⟩

theorem legible_of_source {file : Option String} {source : String} {d : Document}
    (h : ofSource file source = .ok d) : d.Legible := by
  obtain ⟨definitions, hsource, hbuild⟩ := exists_definitions h
  obtain ⟨rfl, -⟩ := build_eq_ok_iff.1 hbuild
  exact legible_lower (ExecutableDocument.legible_of_source hsource)

end Document

end QueryPlan
