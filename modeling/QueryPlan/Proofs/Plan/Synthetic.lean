import QueryPlan.Proofs.Document.References
import QueryPlan.Proofs.Document.Stored
import QueryPlan.Proofs.Plan.Lawful
import QueryPlan.Proofs.Together

/-!
# Ids and what they mean

The synthetic arena of a plan starts where the ids of the document end, and while planning two
things are done to it: a source text is lowered as a field, and a selection set is copied. After
any number of such steps an id means at most one node, and what it meant before it still means
(`ids_keep_meaning`). A compilation does nothing else to the synthetic syntax, whether or not it
comes to an end, so all that is said of steps can be said of plans.
-/

set_option autoImplicit false

namespace QueryPlan

/-! ## Steps -/

/-- What is done to the synthetic syntax of a plan. -/
inductive SyntheticStep
  /-- The source text of a field is lowered. -/
  | lower (source : String)
  | copy (node : SelectionSetNode)

def SyntheticStep.run (a : SyntaxArena) : SyntheticStep → SyntaxArena
  | lower source => (a.lowerFieldSource source).2
  | copy node => (a.copySelectionSet node).2

/-- The arena after some steps. -/
def SyntaxArena.runSteps (a : SyntaxArena) (steps : List SyntheticStep) : SyntaxArena :=
  steps.foldl SyntheticStep.run a

namespace SyntaxArena

variable {a b : SyntaxArena}

theorem runSteps_append (a : SyntaxArena) (steps steps' : List SyntheticStep) :
    a.runSteps (steps ++ steps') = (a.runSteps steps).runSteps steps' :=
  List.foldl_append ..

theorem grows_step (a : SyntaxArena) (step : SyntheticStep) : a.Grows (step.run a) := by
  cases step with
  | lower source => exact a.grows_lowerFieldSource source
  | copy node => exact (Grows.refl a).copySelectionSet node

/-- What every step keeps, any number of steps keep. -/
theorem runSteps_induct {P : SyntaxArena → Prop}
    (hstep : ∀ b (step : SyntheticStep), P b → P (step.run b)) (h : P a)
    (steps : List SyntheticStep) : P (a.runSteps steps) := by
  induction steps generalizing a with
  | nil => exact h
  | cons step steps ih => exact ih (hstep a step h)

theorem grows_runSteps (a : SyntaxArena) (steps : List SyntheticStep) :
    a.Grows (a.runSteps steps) :=
  runSteps_induct (P := fun b => a.Grows b) (fun b step h => h.trans (b.grows_step step))
    (Grows.refl a) steps

/-! ## Lowering the source text of a field -/

/-- A source text is lowered as the field that it is, or nothing happens. -/
theorem lowerFieldSource_cases (a : SyntaxArena) (source : String) :
    (∃ e, a.lowerFieldSource source = (.error e, a)) ∨
      ∃ selection id b, fieldOfSource source = .ok selection ∧
        a.lowerSelection selection = (.field id, b) ∧ a.lowerFieldSource source = (.ok id, b) := by
  unfold lowerFieldSource
  cases hsource : fieldOfSource source with
  | error fault => exact Or.inl ⟨_, rfl⟩
  | ok selection =>
      dsimp only
      rcases hlower : a.lowerSelection selection with ⟨node, b⟩
      cases node with
      | field id => exact Or.inr ⟨selection, id, b, rfl, hlower, rfl⟩
      | spread id => exact Or.inl ⟨_, rfl⟩
      | inlineFragment id => exact Or.inl ⟨_, rfl⟩

theorem field?_nextFieldId (a : SyntaxArena) : a.field? a.nextFieldId = none := by
  cases h : a.field? a.nextFieldId with
  | none => rfl
  | some node => exact absurd (lt_of_atIndex? h) (lt_irrefl _)

/-- The id of a field that is lowered was not taken before. -/
theorem field?_lowerSelection_new {s : Syntax.Selection} {id : FieldId}
    (h : a.lowerSelection s = (.field id, b)) : a.field? id = none := by
  -- an id that the arena has is not the next one of an arena that extends it
  have hnew : ∀ c : SyntaxArena, a.Extends c → a.field? c.nextFieldId = none := by
    intro c hac
    cases hn : a.field? c.nextFieldId with
    | none => rfl
    | some node =>
        have hc := hac.field hn
        rw [field?_nextFieldId] at hc
        cases hc
  cases s with
  | field head p items =>
      rw [lowerSelection] at h
      by_cases hempty : items.isEmpty
      · rw [if_pos hempty] at h
        cases h
        exact hnew a (Extends.refl a)
      · rw [if_neg hempty] at h
        cases h
        exact hnew _ ((grows_lowerItems (a.openSelectionSet p).2 items).enclose _).1.extends_
  | spread head =>
      rw [lowerSelection] at h
      cases h
  | inlineFragment head p items =>
      rw [lowerSelection] at h
      cases h

/-- A field that is lowered stands under its id, with all that is below it. -/
theorem stores_lowerField {s : Syntax.Selection} {id : FieldId}
    (h : a.lowerSelection s = (.field id, b)) : b.Stores [.field id] [s] := by
  have hstores := stores_lowerSelection a s b (h ▸ (Extends.refl b).keeps _) .nil
  rwa [h] at hstores

/-! ## References in synthetic syntax -/

/-- Every node carries its id, and all that stands inside a node is there. -/
structure Accounted (a : SyntaxArena) : Prop where
  numbered : a.Numbered
  enclosed : ∀ id, a.enclosed.count id ≤ a.setIds.count id

theorem accounted_syntheticAfter (a : SyntaxArena) : a.syntheticAfter.Accounted :=
  ⟨.syntheticAfter a, fun _ => Nat.le_refl 0⟩

theorem Accounted.accounts {nodes : List SelectionNode} (h : a.Accounted)
    (hab : a.Accounts nodes [] b) : b.Accounted where
  numbered := hab.numbered h.numbered
  enclosed id := by
    have hbefore := h.enclosed id
    have hbalance := hab.enclosed id
    rw [List.count_nil] at hbalance
    omega

theorem Accounted.copySelectionSet (h : a.Accounted) (node : SelectionSetNode) :
    (a.copySelectionSet node).2.Accounted where
  numbered := by
    refine ⟨h.numbered.field, h.numbered.spread, h.numbered.inlineFragment,
      fun {id found} hfound => ?_⟩
    rw [selectionSet?_copySelectionSet] at hfound
    exact label_of_added SelectionSetNode.id rfl (fun _ => h.numbered.selectionSet) hfound
  enclosed id := by
    have hbefore := h.enclosed id
    simp only [SyntaxArena.enclosed, setIds, SyntaxArena.copySelectionSet, Array.toList_push,
      List.map_append, List.count_append] at hbefore ⊢
    omega

theorem Accounted.step (h : a.Accounted) (step : SyntheticStep) : (step.run a).Accounted := by
  cases step with
  | lower source =>
      rcases a.lowerFieldSource_cases source with ⟨e, heq⟩ | ⟨selection, id, b, -, hlower, heq⟩
      · rw [SyntheticStep.run, heq]
        exact h
      · have haccounts := accounts_lowerSelection a selection
        rw [hlower] at haccounts
        rw [SyntheticStep.run, heq]
        exact h.accounts haccounts
  | copy node => exact h.copySelectionSet node

/-- The set that stands inside a field is one of the arena. -/
theorem Accounted.exists_inner (h : a.Accounted) {id : FieldId} {node : FieldNode}
    {inner : SelectionSetId} (hn : a.field? id = some node)
    (hinner : node.selectionSet = some inner) : ∃ set, a.selectionSet? inner = some set := by
  have hmem : node ∈ a.fields := mem_iff_atIndex?.2 ⟨id.index, hn⟩
  have henclosed : inner ∈ a.enclosed :=
    List.mem_append_left _ (List.mem_filterMap.2 ⟨node, Array.mem_toList_iff.2 hmem, hinner⟩)
  have hcount := List.count_pos_iff.2 henclosed
  have hids := List.count_pos_iff.1 (hcount.trans_le (h.enclosed inner))
  obtain ⟨set, hset, rfl⟩ := List.mem_map.1 hids
  exact ⟨set, h.numbered.selectionSet?_id (Array.mem_toList_iff.1 hset)⟩

theorem accounted_runSteps (a : SyntaxArena) (steps : List SyntheticStep) :
    (a.syntheticAfter.runSteps steps).Accounted :=
  runSteps_induct (fun _ step h => h.step step) (accounted_syntheticAfter a) steps

end SyntaxArena

/-! ## Both arenas in view -/

namespace SyntaxView

/-- No id of any kind is resolved in both arenas. -/
structure Disjoint (v : SyntaxView) : Prop where
  field : ∀ id, v.document.field? id = none ∨ v.synthetic.field? id = none
  spread : ∀ id, v.document.spread? id = none ∨ v.synthetic.spread? id = none
  inlineFragment : ∀ id,
    v.document.inlineFragment? id = none ∨ v.synthetic.inlineFragment? id = none
  selectionSet : ∀ id, v.document.selectionSet? id = none ∨ v.synthetic.selectionSet? id = none

/-- Whatever one view resolves, the other resolves to the same. -/
structure Extends (v w : SyntaxView) : Prop where
  field : ∀ {id node}, v.field? id = some node → w.field? id = some node
  spread : ∀ {id node}, v.spread? id = some node → w.spread? id = some node
  inlineFragment : ∀ {id node},
    v.inlineFragment? id = some node → w.inlineFragment? id = some node
  selectionSet : ∀ {id node}, v.selectionSet? id = some node → w.selectionSet? id = some node

/-- Lowering the source text of a field either fails and changes nothing, or answers with an id
that was not resolved before and now means what the text says, down to the last field in it. -/
def Lowers (v : SyntaxView) (source : String) : Prop :=
  (∃ e, v.synthetic.lowerFieldSource source = (.error e, v.synthetic)) ∨
    ∃ selection id b, fieldOfSource source = .ok selection ∧
      v.synthetic.lowerFieldSource source = (.ok id, b) ∧ v.field? id = none ∧
      SyntaxView.field? ⟨v.document, b⟩ id = b.field? id ∧ b.Stores [.field id] [selection]

/-- Copying a selection set answers with an id that was not resolved before and now means a set
with the same selections. -/
def Copies (v : SyntaxView) (node : SelectionSetNode) : Prop :=
  ∃ id b, v.synthetic.copySelectionSet node = (id, b) ∧ v.selectionSet? id = none ∧
    SyntaxView.selectionSet? ⟨v.document, b⟩ id = some { node with id := id }

theorem orElse_eq_some_mono {α : Type} {x y z : Option α} {n : α}
    (hyz : ∀ {n}, y = some n → z = some n) (h : (x <|> y) = some n) : (x <|> z) = some n := by
  cases x with
  | none => exact hyz h
  | some m => exact h

theorem extends_of_synthetic {document a b : SyntaxArena} (h : a.Extends b) :
    SyntaxView.Extends ⟨document, a⟩ ⟨document, b⟩ :=
  ⟨orElse_eq_some_mono h.field, orElse_eq_some_mono h.spread,
    orElse_eq_some_mono h.inlineFragment, orElse_eq_some_mono h.selectionSet⟩

/-- What was in view while a plan was compiled is in view of the plan. -/
theorem extends_plan {σ : Type} {p : Plan} {document : Document}
    (hdocument : p.document = document) {s : CompileState σ}
    (h : s.synthetic.Grows p.synthetic) : (s.view document).Extends p.view := by
  subst hdocument
  exact extends_of_synthetic h.extends_

/-- Ids that count on from where those before end are not among those before. -/
theorem atIndex?_none_or {α : Type} (base : Nat) (items items' : Array α) (index : Nat) :
    SyntaxArena.atIndex? base items index = none ∨
      SyntaxArena.atIndex? (base + items.size) items' index = none := by
  by_cases h : base + items.size ≤ index
  · refine Or.inl (Option.eq_none_iff_forall_ne_some.2 fun x hx => ?_)
    have hlt := SyntaxArena.lt_of_atIndex? hx
    omega
  · exact Or.inr (if_neg h)

/-- Where the ids of the synthetic arena start. -/
def Follows (v : SyntaxView) : Prop := v.synthetic.bases = v.document.syntheticAfter.bases

theorem Follows.disjoint {v : SyntaxView} (h : v.Follows) : v.Disjoint := by
  have hbases : v.synthetic.bases = v.document.syntheticAfter.bases := h
  refine ⟨fun id => ?_, fun id => ?_, fun id => ?_, fun id => ?_⟩
  · rw [SyntaxArena.field?, SyntaxArena.field?, hbases]
    exact atIndex?_none_or _ _ _ _
  · rw [SyntaxArena.spread?, SyntaxArena.spread?, hbases]
    exact atIndex?_none_or _ _ _ _
  · rw [SyntaxArena.inlineFragment?, SyntaxArena.inlineFragment?, hbases]
    exact atIndex?_none_or _ _ _ _
  · rw [SyntaxArena.selectionSet?, SyntaxArena.selectionSet?, hbases]
    exact atIndex?_none_or _ _ _ _

theorem follows_runSteps (a : SyntaxArena) (steps : List SyntheticStep) :
    Follows ⟨a, a.syntheticAfter.runSteps steps⟩ :=
  (a.syntheticAfter.grows_runSteps steps).extends_.bases

theorem Follows.lowers {v : SyntaxView} (h : v.Follows) (source : String) : v.Lowers source := by
  rcases v.synthetic.lowerFieldSource_cases source with
    hfails | ⟨selection, id, b, hsource, hlower, heq⟩
  · exact Or.inl hfails
  · have hstores := SyntaxArena.stores_lowerField hlower
    -- the id is one of the synthetic arena now, so it is none of the document
    have hgrows := v.synthetic.grows_lowerFieldSource source
    rw [heq] at hgrows
    have hafter : Follows ⟨v.document, b⟩ := hgrows.extends_.bases.trans h
    have hnow : b.field? id ≠ none := by
      cases hstores with
      | leaf hn => rw [hn]; exact Option.some_ne_none _
      | field hn => rw [hn]; exact Option.some_ne_none _
    have hdocument := (hafter.disjoint.field id).resolve_right hnow
    have hsynthetic := SyntaxArena.field?_lowerSelection_new hlower
    refine Or.inr ⟨selection, id, b, hsource, heq, ?_, ?_, hstores⟩
    · rw [SyntaxView.field?, hdocument, hsynthetic]
      rfl
    · rw [SyntaxView.field?, show v.document.field? id = none from hdocument]
      rfl

theorem Follows.copies {v : SyntaxView} (h : v.Follows) (node : SelectionSetNode) :
    v.Copies node := by
  have hbefore : v.synthetic.selectionSet? v.synthetic.nextSelectionSetId = none := by
    cases hn : v.synthetic.selectionSet? v.synthetic.nextSelectionSetId with
    | none => rfl
    | some found => exact absurd (SyntaxArena.lt_of_selectionSet? hn) (lt_irrefl _)
  have hcopy : (v.synthetic.copySelectionSet node).2.selectionSet?
      v.synthetic.nextSelectionSetId =
      some { node with id := v.synthetic.nextSelectionSetId } := by
    rw [SyntaxArena.selectionSet?_copySelectionSet, if_pos rfl]
  have hafter : Follows ⟨v.document, (v.synthetic.copySelectionSet node).2⟩ := h
  have hdocument := (hafter.disjoint.selectionSet v.synthetic.nextSelectionSetId).resolve_right
    (hcopy ▸ Option.some_ne_none _)
  refine ⟨_, _, rfl, ?_, ?_⟩
  · rw [SyntaxView.selectionSet?]
    rw [show v.document.selectionSet? _ = none from hdocument, hbefore]
    rfl
  · rw [SyntaxView.selectionSet?]
    rw [show v.document.selectionSet? _ = none from hdocument]
    exact hcopy

end SyntaxView

/-- **An id never means two nodes, and never changes its meaning.** Whatever has been done to the
synthetic syntax so far, no id is resolved in both arenas; whatever is done next, all that is
resolved stays resolved as it is; and what is handed out is new and means what it was asked
for. -/
theorem ids_keep_meaning (a : SyntaxArena) (steps : List SyntheticStep) (v : SyntaxView)
    (hv : v = ⟨a, a.syntheticAfter.runSteps steps⟩) :
    v.Disjoint ∧ (∀ next, v.Extends ⟨a, a.syntheticAfter.runSteps (steps ++ next)⟩) ∧
      (∀ source, v.Lowers source) ∧ ∀ node, v.Copies node := by
  subst hv
  have hfollows := SyntaxView.follows_runSteps a steps
  refine ⟨hfollows.disjoint, fun next => ?_, hfollows.lowers, hfollows.copies⟩
  rw [SyntaxArena.runSteps_append]
  exact SyntaxView.extends_of_synthetic (SyntaxArena.grows_runSteps _ next).extends_

end QueryPlan
