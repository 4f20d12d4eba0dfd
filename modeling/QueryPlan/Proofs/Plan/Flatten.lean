import QueryPlan.Proofs.Document.Closed
import QueryPlan.Proofs.Plan.Condition
import QueryPlan.Proofs.Run
import QueryPlan.Plan.Compile

/-!
# Collecting is flattening

Collecting walks through nested fragments and merges as it goes. Here the walk is taken apart
from the merging: `Flattens` relates a list of selections to the occurrences of fields and the
deferred fragments found in it, in order and each with its clause, and every run of `collect`
merges what some flattening has found (`collect_flattens`).

Whether a fragment is deferred is up to the optimizers. A flattening only says which answers
they may give, so that one relation serves a compilation without optimizers, one in which all
deferrals are refused, and any other.
-/

set_option autoImplicit false

namespace QueryPlan

/-! ## Reading selections -/

/-- What decides which fragments a concrete type enters, and what they hold. -/
structure Setting where
  schema : Schema
  fragments : FragmentIndex
  view : SyntaxView

/-- The syntax of a document, to which nothing has been put in. -/
def Document.view (d : Document) : SyntaxView := ⟨d.syntaxArena, d.syntaxArena.syntheticAfter⟩

/-- The setting in which an operation is read as it stands in the document. -/
def CompileInput.setting {σ : Type} (input : CompileInput σ) : Setting :=
  ⟨input.schema, input.fragments, input.document.view⟩

/-- The setting of a walk through selection sets. -/
def CollectScope.setting {σ : Type} (s : CollectScope σ) : Setting :=
  ⟨s.context.schema, s.fragments, s.view⟩

/-- The selections of a selection set. -/
def SyntaxView.selectionsOf (v : SyntaxView) (id : SelectionSetId) : List SelectionNode :=
  match v.selectionSet? id with
  | none => []
  | some node => node.selections

/-- A fragment where it stands in a selection set: an inline fragment, or a spread together with
the fragment that it names. -/
structure FragmentUse where
  directives : List DirectiveNode
  source : DeferredSource
  selectionSet : SelectionSetId
  typeCondition : Option String

namespace Setting

variable (g : Setting) (t : ObjectType)

/-- The selection is a fragment, whatever type reads it. -/
inductive Uses : SelectionNode → FragmentUse → Prop
  | inlineFragment {id : InlineFragmentId} {node : InlineFragmentNode} :
      g.view.inlineFragment? id = some node →
      Uses (.inlineFragment id)
        ⟨node.directives, .inlineFragment id, node.selectionSet, node.typeCondition⟩
  | spread {id : SpreadId} {node : SpreadNode} {fragment : FragmentNode} :
      g.view.spread? id = some node →
      g.fragments.resolve? node.fragmentName = some fragment →
      Uses (.spread id)
        ⟨node.directives, .spread node.fragmentName id, fragment.selectionSet,
          some fragment.typeCondition⟩

/-- The selection is a fragment whose type condition the type meets. -/
inductive Opens : SelectionNode → FragmentUse → Prop
  | inlineFragment {id : InlineFragmentId} {node : InlineFragmentNode} :
      g.view.inlineFragment? id = some node →
      (∀ c, node.typeCondition = some c → g.schema.isPossibleType c t.name = true) →
      Opens (.inlineFragment id)
        ⟨node.directives, .inlineFragment id, node.selectionSet, node.typeCondition⟩
  | spread {id : SpreadId} {node : SpreadNode} {fragment : FragmentNode} :
      g.view.spread? id = some node →
      g.fragments.resolve? node.fragmentName = some fragment →
      g.schema.isPossibleType fragment.typeCondition t.name = true →
      Opens (.spread id)
        ⟨node.directives, .spread node.fragmentName id, fragment.selectionSet,
          some fragment.typeCondition⟩

/-- The selection is passed over: a fragment whose type condition is defined but not met, or an
id without a node. -/
inductive Passes : SelectionNode → Prop
  | inlineFragment {id : InlineFragmentId} {node : InlineFragmentNode} {c : String} :
      g.view.inlineFragment? id = some node → node.typeCondition = some c →
      (∃ type, g.schema.type? c = some type) → g.schema.isPossibleType c t.name = false →
      Passes (.inlineFragment id)
  | spread {id : SpreadId} {node : SpreadNode} {fragment : FragmentNode} :
      g.view.spread? id = some node →
      g.fragments.resolve? node.fragmentName = some fragment →
      (∃ type, g.schema.type? fragment.typeCondition = some type) →
      g.schema.isPossibleType fragment.typeCondition t.name = false →
      Passes (.spread id)
  | noField {id : FieldId} : g.view.field? id = none → Passes (.field id)
  | noInlineFragment {id : InlineFragmentId} :
      g.view.inlineFragment? id = none → Passes (.inlineFragment id)
  | noSpread {id : SpreadId} : g.view.spread? id = none → Passes (.spread id)

variable {g t} {sel : SelectionNode} {u v : FragmentUse}

theorem Uses.unique (hu : g.Uses sel u) (hv : g.Uses sel v) : u = v := by
  cases hu with
  | inlineFragment hn =>
      cases hv with
      | inlineFragment hm =>
          rw [hn, Option.some_inj] at hm
          rw [hm]
  | spread hn hf =>
      cases hv with
      | spread hm hf' =>
          rw [hn, Option.some_inj] at hm
          subst hm
          rw [hf, Option.some_inj] at hf'
          rw [hf']

/-- A type opens the fragments whose type condition it meets. -/
theorem opens_iff :
    g.Opens t sel u ↔
      g.Uses sel u ∧ ∀ c, u.typeCondition = some c → g.schema.isPossibleType c t.name = true := by
  constructor
  · intro h
    cases h with
    | inlineFragment hn hmeets => exact ⟨.inlineFragment hn, hmeets⟩
    | spread hn hf hmeets =>
        exact ⟨.spread hn hf, fun c hc => Option.some.inj hc ▸ hmeets⟩
  · rintro ⟨h, hmeets⟩
    cases h with
    | inlineFragment hn => exact .inlineFragment hn hmeets
    | spread hn hf => exact .spread hn hf (hmeets _ rfl)

/-- A type passes over the fragments whose type condition is defined, and which it does not
meet. -/
theorem Uses.passes_iff (h : g.Uses sel u) :
    g.Passes t sel ↔ ∃ c, u.typeCondition = some c ∧ (∃ type, g.schema.type? c = some type) ∧
      g.schema.isPossibleType c t.name = false := by
  cases h with
  | inlineFragment hn =>
      constructor
      · intro hp
        cases hp with
        | inlineFragment hm hc hdefined hnot =>
            rw [hn, Option.some_inj] at hm
            subst hm
            exact ⟨_, hc, hdefined, hnot⟩
        | noInlineFragment hm =>
            rw [hn] at hm
            cases hm
      · rintro ⟨c, hc, hdefined, hnot⟩
        exact .inlineFragment hn hc hdefined hnot
  | spread hn hf =>
      constructor
      · intro hp
        cases hp with
        | spread hm hf' hdefined hnot =>
            rw [hn, Option.some_inj] at hm
            subst hm
            rw [hf, Option.some_inj] at hf'
            subst hf'
            exact ⟨_, rfl, hdefined, hnot⟩
        | noSpread hm =>
            rw [hn] at hm
            cases hm
      · rintro ⟨c, hc, hdefined, hnot⟩
        obtain rfl := Option.some.inj hc
        exact .spread hn hf hdefined hnot

/-- A selection opens at most one fragment. -/
theorem Opens.unique (hu : g.Opens t sel u) (hv : g.Opens t sel v) : u = v :=
  (opens_iff.1 hu).1.unique (opens_iff.1 hv).1

theorem Passes.not_opens (hp : g.Passes t sel) : ¬ g.Opens t sel u := by
  intro hu
  obtain ⟨huse, hmeets⟩ := opens_iff.1 hu
  obtain ⟨c, hc, -, hnot⟩ := huse.passes_iff.1 hp
  rw [hmeets c hc] at hnot
  cases hnot

end Setting

/-! ## Flattening -/

/-- Something found in a selection set. -/
inductive Found
  /-- An occurrence of a field; it has a clause if it can be reached. -/
  | field (node : FieldNode) (field : Field) (clause : Option Clause)
  | deferral (d : PendingDeferral)

/-- Merges something into what has been collected. -/
def Collected.merge (c : Collected) : Found → Collected
  | .field node field clause =>
    let entry := (c.fields.get? node.responseKey).getD (.ofNode node field)
    { c with fields := c.fields.insert node.responseKey (entry.add node.id clause) }
  | .deferral d => c.addDeferral d

/-- Merges all that was found, in order. -/
def Collected.mergeAll (c : Collected) (fs : List Found) : Collected := fs.foldl merge c

/-- The clause under which something with directives is reached. -/
def reachedUnder (clause : Option Clause) (ds : List DirectiveNode) : Option Clause :=
  clause.bind fun c => c.andDirectives ds

/-- The fragment would be deferred if the optimizers allow it. -/
def Deferrable (clause : Option Clause) (ds : List DirectiveNode) : Prop :=
  (∃ c, reachedUnder clause ds = some c) ∧ ∃ d, DeferDirective.ofDirectives? ds = some d

/-- What is found in selections that are reached under a clause, if they can be reached.
`answers` are the answers that the optimizers may give when they are asked for a deferral. -/
inductive Setting.Flattens (g : Setting) (t : ObjectType) (answers : Bool → Prop) :
    List SelectionNode → Option Clause → List Found → Prop
  | nil {clause} : Flattens g t answers [] clause []
  | field {id node field rest clause fs} :
      g.view.field? id = some node → t.field? node.name = some field →
      Flattens g t answers rest clause fs →
      Flattens g t answers (.field id :: rest) clause
        (.field node field (reachedUnder clause node.directives) :: fs)
  | passed {sel rest clause fs} :
      g.Passes t sel → Flattens g t answers rest clause fs →
      Flattens g t answers (sel :: rest) clause fs
  | entered {sel use rest clause fs fs'} :
      g.Opens t sel use → (Deferrable clause use.directives → answers false) →
      Flattens g t answers (g.view.selectionsOf use.selectionSet)
        (reachedUnder clause use.directives) fs →
      Flattens g t answers rest clause fs' →
      Flattens g t answers (sel :: rest) clause (fs ++ fs')
  | deferred {sel use rest clause c d fs} :
      g.Opens t sel use → reachedUnder clause use.directives = some c →
      DeferDirective.ofDirectives? use.directives = some d → answers true →
      Flattens g t answers rest clause fs →
      Flattens g t answers (sel :: rest) clause
        (.deferral ⟨use.source, d, c, use.selectionSet, use.typeCondition⟩ :: fs)

/-- What is found in several selection sets, one after another. -/
inductive Setting.FlattensAll (g : Setting) (t : ObjectType) (answers : Bool → Prop) :
    List ClausedSet → List Found → Prop
  | nil : FlattensAll g t answers [] []
  | cons {c cs fs fs'} :
      g.Flattens t answers (g.view.selectionsOf c.selectionSet) (some c.clause) fs →
      FlattensAll g t answers cs fs' → FlattensAll g t answers (c :: cs) (fs ++ fs')

/-- What is reached under the second clause stands inside what is reached under the first one, in
fragments with any directives. -/
inductive Narrows : Option Clause → Option Clause → Prop
  | refl {clause} : Narrows clause clause
  | inside {clause ds c} : Narrows (reachedUnder clause ds) c → Narrows clause c

/-- Where something that is found comes from: it is an occurrence of a field that the type has, or
a fragment that asks to be set aside. -/
inductive Setting.Origin (g : Setting) (t : ObjectType) (answers : Bool → Prop)
    (clause : Option Clause) : Found → Prop
  | field {id node field c} :
      g.view.field? id = some node → t.field? node.name = some field → Narrows clause c →
      Origin g t answers clause (.field node field c)
  | deferral {sel use d c} :
      g.Opens t sel use → DeferDirective.ofDirectives? use.directives = some d → answers true →
      Narrows clause (some c) →
      Origin g t answers clause
        (.deferral ⟨use.source, d, c, use.selectionSet, use.typeCondition⟩)

namespace Setting

variable {g : Setting} {t : ObjectType} {answers : Bool → Prop} {fs : List Found}
  {node : FieldNode} {f : Field} {c : Option Clause}

/-! ### What is found -/

theorem Origin.inside {clause : Option Clause} {ds : List DirectiveNode} {x : Found}
    (h : g.Origin t answers (reachedUnder clause ds) x) : g.Origin t answers clause x := by
  cases h with
  | field hn hf hclause => exact .field hn hf (.inside hclause)
  | deferral hopens hd hasked hclause => exact .deferral hopens hd hasked (.inside hclause)

/-- Whatever is found has its origin in the selections that it was found in. -/
theorem Flattens.origin {sels : List SelectionNode} {clause : Option Clause}
    (h : g.Flattens t answers sels clause fs) : ∀ x ∈ fs, g.Origin t answers clause x := by
  induction h with
  | nil => exact List.forall_mem_nil _
  | field hn hf _ ih => exact List.forall_mem_cons.2 ⟨.field hn hf (.inside .refl), ih⟩
  | passed _ _ ih => exact ih
  | entered _ _ _ _ ih ih' =>
      exact List.forall_mem_append.2 ⟨fun x hx => (ih x hx).inside, ih'⟩
  | @deferred _ use _ clause _ _ _ hopens hc hd hasked _ ih =>
      have hclause : Narrows clause (reachedUnder clause use.directives) := .inside .refl
      rw [hc] at hclause
      exact List.forall_mem_cons.2 ⟨.deferral hopens hd hasked hclause, ih⟩

theorem FlattensAll.origin {sources : List ClausedSet} (h : g.FlattensAll t answers sources fs)
    {x : Found} (hx : x ∈ fs) :
    ∃ source ∈ sources, g.Origin t answers (some source.clause) x := by
  induction h with
  | nil => exact absurd hx List.not_mem_nil
  | cons hflat _ ih =>
      rcases List.mem_append.1 hx with hx | hx
      · exact ⟨_, List.mem_cons_self, hflat.origin x hx⟩
      · obtain ⟨source, hsource, horigin⟩ := ih hx
        exact ⟨source, List.mem_cons_of_mem _ hsource, horigin⟩

/-- Every occurrence found is a node in view, of a field that the type has. -/
theorem FlattensAll.field_mem {sources : List ClausedSet}
    (h : g.FlattensAll t answers sources fs) (hmem : .field node f c ∈ fs) :
    (∃ id, g.view.field? id = some node) ∧ t.field? node.name = some f := by
  obtain ⟨_, -, horigin⟩ := h.origin hmem
  cases horigin with
  | field hn hf _ => exact ⟨⟨_, hn⟩, hf⟩

/-- What is found in several selection sets is found in each of them. -/
theorem FlattensAll.of_mem {sources : List ClausedSet} (h : g.FlattensAll t answers sources fs)
    {source : ClausedSet} (hsource : source ∈ sources) :
    ∃ fs', g.Flattens t answers (g.view.selectionsOf source.selectionSet) (some source.clause)
      fs' ∧ fs' ⊆ fs := by
  induction h with
  | nil => exact absurd hsource List.not_mem_nil
  | @cons _ _ fs fs' hflat _ ih =>
      rcases List.mem_cons.1 hsource with rfl | hsource
      · exact ⟨fs, hflat, List.subset_append_left _ _⟩
      · obtain ⟨found, hfound, hsub⟩ := ih hsource
        exact ⟨found, hfound, List.Subset.trans hsub (List.subset_append_right _ _)⟩

/-- Nothing is set aside where no fragment that asks for it is allowed to be. -/
theorem FlattensAll.not_deferral {sources : List ClausedSet}
    (h : g.FlattensAll t answers sources fs)
    (hnone : ∀ {sel use d}, g.Opens t sel use →
      DeferDirective.ofDirectives? use.directives = some d → ¬ answers true)
    (d : PendingDeferral) : .deferral d ∉ fs := by
  intro hmem
  obtain ⟨_, -, horigin⟩ := h.origin hmem
  cases horigin with
  | deferral hopens hd hasked _ => exact hnone hopens hd hasked

end Setting

/-! ## Runs of the walk -/

namespace CollectScope

variable {σ : Type}

/-- The answers that the optimizers of a walk may give to the questions of the walk. -/
structure Answers (s : CollectScope σ) (answers : Bool → Prop) : Prop where
  spread : ∀ node fragment m,
    answers ((allAllow (fun o => o.allowsSpread s.context node fragment) s.optimizers).run m).1
  inlineFragment : ∀ node m,
    answers ((allAllow (fun o => o.allowsInlineFragment s.context node) s.optimizers).run m).1

variable {s : CollectScope σ} {answers : Bool → Prop} {clause : Option Clause}
  {acc acc' : Collected} {m m' : σ}

theorem answers_any (s : CollectScope σ) : s.Answers fun _ => True :=
  ⟨fun _ _ _ => trivial, fun _ _ => trivial⟩

/-- The found things are what a walk adds to what it has collected. -/
def Adds (s : CollectScope σ) (answers : Bool → Prop) (sels : List SelectionNode)
    (clause : Option Clause) (acc acc' : Collected) : Prop :=
  ∃ fs, s.setting.Flattens s.context.objectType answers sels clause fs ∧ acc' = acc.mergeAll fs

/-- Two stretches of a walk, the first of which is one selection. -/
def AddsOne (s : CollectScope σ) (answers : Bool → Prop) (sel : SelectionNode)
    (clause : Option Clause) (acc acc' : Collected) : Prop :=
  ∃ fs, (∀ {rest fs'}, s.setting.Flattens s.context.objectType answers rest clause fs' →
    s.setting.Flattens s.context.objectType answers (sel :: rest) clause (fs ++ fs')) ∧
    acc' = acc.mergeAll fs

theorem AddsOne.cons {sel : SelectionNode} {rest : List SelectionNode} {acc₁ : Collected}
    (h : s.AddsOne answers sel clause acc acc₁) (h' : s.Adds answers rest clause acc₁ acc') :
    s.Adds answers (sel :: rest) clause acc acc' := by
  obtain ⟨fs, hcons, rfl⟩ := h
  obtain ⟨fs', hrest, rfl⟩ := h'
  exact ⟨fs ++ fs', hcons hrest, (List.foldl_append ..).symm⟩

/-- A type condition that is read is defined. -/
theorem runs_meets {c : String} {location : SyntaxLocation} {b : Bool}
    (h : Runs (liftM (s.meets c location) : CollectM σ Bool) m b m') :
    (∃ type, s.context.schema.type? c = some type) ∧
      s.context.schema.isPossibleType c s.context.objectType.name = b ∧ m' = m := by
  unfold meets at h
  split at h
  · exact absurd h not_runs_throw
  · rename_i type ht
    obtain ⟨rfl, rfl⟩ := runs_pure.1 h
    exact ⟨⟨type, ht⟩, rfl, rfl⟩

/-- Going into a fragment, or setting it aside. -/
theorem enterFragment_addsOne {enter : Enter σ} {ds : List DirectiveNode}
    {source : DeferredSource} {set : SelectionSetId} {typeCondition : Option String}
    {ask : Optimizer σ → StateM σ Bool} {sel : SelectionNode}
    (hopens : s.setting.Opens s.context.objectType sel ⟨ds, source, set, typeCondition⟩)
    (hask : ∀ m, answers ((allAllow ask s.optimizers).run m).1)
    (henter : ∀ {m acc' m'}, Runs (enter set (reachedUnder clause ds) acc) m acc' m' →
      s.Adds answers (s.view.selectionsOf set) (reachedUnder clause ds) acc acc')
    (h : Runs (s.enterFragment enter clause ds source set typeCondition ask acc) m acc' m') :
    s.AddsOne answers sel clause acc acc' := by
  -- the fragment is entered, whether it was asked for or not
  have hgo : ∀ {m}, Runs (enter set (reachedUnder clause ds) acc) m acc' m' →
      (Deferrable clause ds → answers false) → s.AddsOne answers sel clause acc acc' := by
    intro m hrun hans
    obtain ⟨fs, hfs, hacc⟩ := henter hrun
    exact ⟨fs, fun hrest => .entered hopens hans hfs hrest, hacc⟩
  dsimp only [enterFragment] at h
  split at h
  · rename_i c d hc hd
    obtain ⟨b, m₁, hb, h⟩ := runs_bind.1 h
    have hans : answers b := by
      have hm := hask m
      rw [runs_lift.1 hb] at hm
      exact hm
    cases b with
    | true =>
        obtain ⟨rfl, rfl⟩ := runs_pure.1 h
        exact ⟨[.deferral _], fun hrest => .deferred hopens hc hd hans hrest, rfl⟩
    | false => exact hgo h fun _ => hans
  · rename_i hnot
    exact hgo h fun ⟨⟨c, hc⟩, d, hd⟩ => absurd hd (hnot c d hc)

/-- A selection that is passed over adds nothing. -/
theorem addsOne_of_passes {sel : SelectionNode}
    (hp : s.setting.Passes s.context.objectType sel) : s.AddsOne answers sel clause acc acc :=
  ⟨[], .passed hp, rfl⟩

theorem collectField_addsOne {enter : Enter σ} {id : FieldId}
    (h : Runs (s.collectSelection enter clause acc (.field id)) m acc' m') :
    s.AddsOne answers (.field id) clause acc acc' := by
  dsimp only [collectSelection] at h
  split at h
  · rename_i hn
    obtain ⟨rfl, -⟩ := runs_pure.1 h
    exact addsOne_of_passes (.noField hn)
  · rename_i node hn
    split at h
    · exact absurd h not_runs_throw
    · rename_i field hf
      obtain ⟨rfl, rfl⟩ := runs_pure.1 h
      exact ⟨[.field node field (reachedUnder clause node.directives)],
        fun hrest => .field hn hf hrest, rfl⟩

theorem collectInlineFragment_addsOne {enter : Enter σ} {id : InlineFragmentId}
    (hans : s.Answers answers)
    (henter : ∀ {set clause acc m acc' m'}, Runs (enter set clause acc) m acc' m' →
      s.Adds answers (s.view.selectionsOf set) clause acc acc')
    (h : Runs (s.collectSelection enter clause acc (.inlineFragment id)) m acc' m') :
    s.AddsOne answers (.inlineFragment id) clause acc acc' := by
  dsimp only [collectSelection] at h
  split at h
  · rename_i hn
    obtain ⟨rfl, -⟩ := runs_pure.1 h
    exact addsOne_of_passes (.noInlineFragment hn)
  · rename_i node hn
    -- without a type condition it is entered like one whose condition is met
    have hgo : ∀ {m m'}, (∀ c, node.typeCondition = some c →
        s.context.schema.isPossibleType c s.context.objectType.name = true) →
        Runs (s.enterFragment enter clause node.directives (.inlineFragment id)
          node.selectionSet node.typeCondition
          (fun o => o.allowsInlineFragment s.context node) acc) m acc' m' →
        s.AddsOne answers (.inlineFragment id) clause acc acc' :=
      fun hmeets hrun => enterFragment_addsOne (.inlineFragment hn hmeets)
        (hans.inlineFragment node) henter hrun
    split at h
    · rename_i htc
      exact hgo (fun c hc => absurd (htc.symm.trans hc) (by simp)) h
    · rename_i c htc
      obtain ⟨applies, m₁, happlies, h⟩ := runs_bind.1 h
      obtain ⟨hdef, hmeets, rfl⟩ := runs_meets happlies
      cases applies with
      | true => exact hgo (fun c' hc => Option.some.inj (htc.symm.trans hc) ▸ hmeets) h
      | false =>
          obtain ⟨rfl, -⟩ := runs_pure.1 h
          exact addsOne_of_passes (.inlineFragment hn htc hdef hmeets)

theorem collectSpread_addsOne {enter : Enter σ} {id : SpreadId} (hans : s.Answers answers)
    (henter : ∀ {set clause acc m acc' m'}, Runs (enter set clause acc) m acc' m' →
      s.Adds answers (s.view.selectionsOf set) clause acc acc')
    (h : Runs (s.collectSelection enter clause acc (.spread id)) m acc' m') :
    s.AddsOne answers (.spread id) clause acc acc' := by
  dsimp only [collectSelection] at h
  split at h
  · rename_i hn
    obtain ⟨rfl, -⟩ := runs_pure.1 h
    exact addsOne_of_passes (.noSpread hn)
  · rename_i node hn
    split at h
    · exact absurd h not_runs_throw
    · rename_i fragment hf
      obtain ⟨applies, m₁, happlies, h⟩ := runs_bind.1 h
      obtain ⟨hdef, hmeets, rfl⟩ := runs_meets happlies
      cases applies with
      | true =>
          exact enterFragment_addsOne (.spread hn hf hmeets) (hans.spread node fragment)
            henter h
      | false =>
          obtain ⟨rfl, -⟩ := runs_pure.1 h
          exact addsOne_of_passes (.spread hn hf hdef hmeets)

/-- One selection of a walk that goes on into fragments by `enter`. -/
theorem collectSelection_addsOne {enter : Enter σ} {sel : SelectionNode}
    (hans : s.Answers answers)
    (henter : ∀ {set clause acc m acc' m'}, Runs (enter set clause acc) m acc' m' →
      s.Adds answers (s.view.selectionsOf set) clause acc acc')
    (h : Runs (s.collectSelection enter clause acc sel) m acc' m') :
    s.AddsOne answers sel clause acc acc' := by
  cases sel with
  | field id => exact collectField_addsOne h
  | inlineFragment id => exact collectInlineFragment_addsOne hans henter h
  | spread id => exact collectSpread_addsOne hans henter h

/-- Collecting a selection set goes through its selections. -/
theorem collect_succ (s : CollectScope σ) (fuel : Nat) (set : SelectionSetId)
    (clause : Option Clause) (acc : Collected) :
    s.collect (fuel + 1) set clause acc =
      (s.view.selectionsOf set).foldlM (s.collectSelection (s.collect fuel) clause) acc := by
  unfold collect SyntaxView.selectionsOf
  cases s.view.selectionSet? set with
  | none => rfl
  | some node => rfl

/-- A walk merges what some flattening of the selection set has found. -/
theorem collect_flattens (hans : s.Answers answers) {fuel : Nat} {set : SelectionSetId}
    (h : Runs (s.collect fuel set clause acc) m acc' m') :
    s.Adds answers (s.view.selectionsOf set) clause acc acc' := by
  induction fuel generalizing set clause acc m acc' m' with
  | zero => exact absurd h not_runs_throw
  | succ fuel ih =>
      rw [collect_succ] at h
      -- the selections one after another; each may go on into fragments with less fuel
      have hloop : ∀ {sels : List SelectionNode} {acc m acc' m'},
          Runs (sels.foldlM (s.collectSelection (s.collect fuel) clause) acc) m acc' m' →
          s.Adds answers sels clause acc acc' := by
        intro sels
        induction sels with
        | nil =>
            intro acc m acc' m' h
            exact ⟨[], .nil, (runs_foldlM_nil.1 h).1⟩
        | cons sel rest ihrest =>
            intro acc m acc' m' h
            obtain ⟨acc₁, m₁, hsel, hrest⟩ := runs_foldlM_cons.1 h
            exact (collectSelection_addsOne hans (fun h => ih h) hsel).cons (ihrest hrest)
      exact hloop h

/-- Collecting several selection sets merges what flattening them all has found. -/
theorem collectAll_flattens (hans : s.Answers answers) {sources : List ClausedSet}
    (h : Runs (s.collectAll sources) m acc m') :
    ∃ fs, s.setting.FlattensAll s.context.objectType answers sources fs ∧
      acc = Collected.empty.mergeAll fs := by
  have hloop : ∀ {sources : List ClausedSet} {acc m acc' m'},
      Runs (sources.foldlM
        (fun acc c => s.collect s.nestingBound c.selectionSet (some c.clause) acc) acc)
        m acc' m' →
      ∃ fs, s.setting.FlattensAll s.context.objectType answers sources fs ∧
        acc' = acc.mergeAll fs := by
    intro sources
    induction sources with
    | nil =>
        intro acc m acc' m' h
        exact ⟨[], .nil, (runs_foldlM_nil.1 h).1⟩
    | cons c cs ih =>
        intro acc m acc' m' h
        obtain ⟨acc₁, m₁, hc, hcs⟩ := runs_foldlM_cons.1 h
        obtain ⟨fs, hfs, rfl⟩ := collect_flattens hans hc
        obtain ⟨fs', hfs', rfl⟩ := ih hcs
        exact ⟨fs ++ fs', .cons hfs hfs', (List.foldl_append ..).symm⟩
  exact hloop h

end CollectScope

/-! ## Collecting while compiling -/

namespace CompileInput

variable {σ : Type} {input : CompileInput σ}

/-- The walk of a compilation that has come to a state. -/
def scope (input : CompileInput σ) (context : PlanContext) (optimizers : List (Optimizer σ))
    (s : CompileState σ) : CollectScope σ :=
  ⟨context, input.fragments, s.view input.document, optimizers⟩

/-- Collecting touches nothing of the state but what the optimizers remember. -/
theorem runs_collect {context : PlanContext} {optimizers : List (Optimizer σ)}
    {sources : List ClausedSet} {s s' : CompileState σ} {c : Collected} :
    Runs (input.collect context optimizers sources) s c s' ↔
      ∃ memory, Runs ((input.scope context optimizers s).collectAll sources) s.memory c memory ∧
        s' = { s with memory := memory } := by
  unfold CompileInput.collect
  rw [runs_bind]
  simp only [runs_get]
  constructor
  · rintro ⟨_, _, ⟨rfl, rfl⟩, h⟩
    obtain ⟨_, s₁, h₁, h⟩ := runs_bind.1 h
    rw [runs_set] at h₁
    subst h₁
    split at h
    · rename_i c' hc'
      obtain ⟨rfl, rfl⟩ := runs_pure.1 h
      exact ⟨_, Prod.ext hc' rfl, rfl⟩
    · exact absurd h not_runs_throw
  · rintro ⟨memory, h, rfl⟩
    refine ⟨s, s, ⟨rfl, rfl⟩, ?_⟩
    unfold Runs at h
    unfold scope at h
    rw [h]
    exact runs_bind.2 ⟨⟨⟩, _, runs_set.2 rfl, runs_pure.2 ⟨rfl, rfl⟩⟩

end CompileInput

end QueryPlan
