import QueryPlan.Proofs.Plan.Made
import QueryPlan.Proofs.Plan.Reference

/-!
# Selection sets that are not revised

Without optimizers, or with passive ones, a selection set is determined by what was found in its
sources: `Spelled` says how its selections and deferred fragments correspond to what was found,
and from which sources the sets below were made in turn. All of it is said about the document as
it stands: the synthetic syntax that a compilation has put in by then does not matter.
-/

set_option autoImplicit false

namespace QueryPlan

variable {σ : Type}

/-! ## Syntax of the document -/

namespace SyntaxView

variable {v : SyntaxView}

theorem field?_of_document {id : FieldId} {n : FieldNode}
    (h : v.document.field? id = some n) : v.field? id = some n := by
  rw [SyntaxView.field?, h]
  rfl

theorem spread?_of_document {id : SpreadId} {n : SpreadNode}
    (h : v.document.spread? id = some n) : v.spread? id = some n := by
  rw [SyntaxView.spread?, h]
  rfl

theorem inlineFragment?_of_document {id : InlineFragmentId} {n : InlineFragmentNode}
    (h : v.document.inlineFragment? id = some n) : v.inlineFragment? id = some n := by
  rw [SyntaxView.inlineFragment?, h]
  rfl

theorem selectionsOf_of_document {id : SelectionSetId} {n : SelectionSetNode}
    (h : v.document.selectionSet? id = some n) : v.selectionsOf id = n.selections := by
  rw [selectionsOf, SyntaxView.selectionSet?, h]
  rfl

end SyntaxView

/-- The selection set is one of the document. -/
def Document.Has (d : Document) (set : SelectionSetId) : Prop :=
  ∃ node, d.syntaxArena.selectionSet? set = some node

namespace Document

variable {d : Document} {v w : SyntaxView} {set : SelectionSetId}

theorem Closed.resolves_selectionsOf (hd : d.Closed) (hv : v.document = d.syntaxArena)
    (hset : d.Has set) : ∀ sel ∈ v.selectionsOf set, d.syntaxArena.Resolves sel := by
  obtain ⟨node, hnode⟩ := hset
  rw [SyntaxView.selectionsOf_of_document (hv ▸ hnode)]
  exact fun sel hsel => hd.arena.resolves hnode hsel

theorem Has.selectionsOf_eq (hset : d.Has set) (hv : v.document = d.syntaxArena)
    (hw : w.document = d.syntaxArena) : v.selectionsOf set = w.selectionsOf set := by
  obtain ⟨node, hnode⟩ := hset
  rw [SyntaxView.selectionsOf_of_document (hv ▸ hnode),
    SyntaxView.selectionsOf_of_document (hw ▸ hnode)]

/-- The sub-selections of a field of the document are in the document. -/
theorem Closed.has_of_field (hd : d.Closed) {id : FieldId} {n : FieldNode}
    (hn : d.syntaxArena.field? id = some n) (hset : n.selectionSet = some set) : d.Has set := by
  have hinner : d.syntaxArena.innerSet? (.field id) = some set := by
    rw [SyntaxArena.innerSet?, hn]
    exact hset
  exact hd.arena.inner hinner

theorem Closed.has_of_inlineFragment (hd : d.Closed) {id : InlineFragmentId}
    {n : InlineFragmentNode} (hn : d.syntaxArena.inlineFragment? id = some n) :
    d.Has n.selectionSet := by
  have hinner : d.syntaxArena.innerSet? (.inlineFragment id) = some n.selectionSet := by
    rw [SyntaxArena.innerSet?, hn]
    rfl
  exact hd.arena.inner hinner

end Document

/-! What a selection of the document resolves to in view is a node of the document. -/

section Resolves

variable {d : Document} {v : SyntaxView}

theorem SyntaxView.field?_of_resolves {id : FieldId} {n : FieldNode}
    (hsel : d.syntaxArena.Resolves (.field id)) (hv : v.document = d.syntaxArena)
    (hn : v.field? id = some n) : d.syntaxArena.field? id = some n := by
  obtain ⟨m, hm⟩ := hsel
  rw [field?_of_document (hv ▸ hm), Option.some_inj] at hn
  exact hn ▸ hm

theorem SyntaxView.inlineFragment?_of_resolves {id : InlineFragmentId} {n : InlineFragmentNode}
    (hsel : d.syntaxArena.Resolves (.inlineFragment id)) (hv : v.document = d.syntaxArena)
    (hn : v.inlineFragment? id = some n) : d.syntaxArena.inlineFragment? id = some n := by
  obtain ⟨m, hm⟩ := hsel
  rw [inlineFragment?_of_document (hv ▸ hm), Option.some_inj] at hn
  exact hn ▸ hm

theorem SyntaxView.spread?_of_resolves {id : SpreadId} {n : SpreadNode}
    (hsel : d.syntaxArena.Resolves (.spread id)) (hv : v.document = d.syntaxArena)
    (hn : v.spread? id = some n) : d.syntaxArena.spread? id = some n := by
  obtain ⟨m, hm⟩ := hsel
  rw [spread?_of_document (hv ▸ hm), Option.some_inj] at hn
  exact hn ▸ hm

end Resolves

/-! ## Reading one view or another -/

section Transfer

variable {schema : Schema} {fragments : FragmentIndex} {d : Document} {v w : SyntaxView}
  {t : ObjectType} {sel : SelectionNode}

/-- The fragments are those of the document. -/
def FragmentIndex.Within (fragments : FragmentIndex) (d : Document) : Prop :=
  ∀ ⦃name f⦄, fragments.resolve? name = some f → d.Has f.selectionSet

/-- The fragments that are indexed for a document are those of the document. -/
theorem FragmentIndex.within_of_build (hd : d.Closed) (h : build d = .ok fragments) :
    fragments.Within d :=
  fun _ _ hf => exists_set_of_resolve? hd h hf

/-- What was found is a node of the document, or a fragment of it. -/
def Found.Within (d : Document) : Found → Prop
  | .field n _ _ => d.syntaxArena.field? n.id = some n
  | .deferral p => d.Has p.selectionSet

namespace Setting

/-- A selection of the document opens the same fragment in every view, one of the document. -/
theorem Opens.transfer (hd : d.Closed) (hfragments : fragments.Within d)
    (hv : v.document = d.syntaxArena) (hw : w.document = d.syntaxArena) {use : FragmentUse}
    (h : Opens ⟨schema, fragments, v⟩ t sel use) (hsel : d.syntaxArena.Resolves sel) :
    Opens ⟨schema, fragments, w⟩ t sel use ∧ d.Has use.selectionSet := by
  cases h with
  | inlineFragment hn hmeets =>
      have hm := SyntaxView.inlineFragment?_of_resolves hsel hv hn
      exact ⟨.inlineFragment (SyntaxView.inlineFragment?_of_document (hw ▸ hm)) hmeets,
        hd.has_of_inlineFragment hm⟩
  | spread hn hf hmeets =>
      have hm := SyntaxView.spread?_of_resolves hsel hv hn
      exact ⟨.spread (SyntaxView.spread?_of_document (hw ▸ hm)) hf hmeets, hfragments hf⟩

theorem Passes.transfer (hv : v.document = d.syntaxArena) (hw : w.document = d.syntaxArena)
    (h : Passes ⟨schema, fragments, v⟩ t sel) (hsel : d.syntaxArena.Resolves sel) :
    Passes ⟨schema, fragments, w⟩ t sel := by
  cases h with
  | inlineFragment hn hc hdefined hnot =>
      have hm := SyntaxView.inlineFragment?_of_resolves hsel hv hn
      exact .inlineFragment (SyntaxView.inlineFragment?_of_document (hw ▸ hm)) hc hdefined hnot
  | spread hn hf hdefined hnot =>
      have hm := SyntaxView.spread?_of_resolves hsel hv hn
      exact .spread (SyntaxView.spread?_of_document (hw ▸ hm)) hf hdefined hnot
  -- a selection of the document has a node, so it is not passed over for want of one
  | noField hn =>
      obtain ⟨m, hm⟩ := hsel
      rw [SyntaxView.field?_of_document (hv ▸ hm)] at hn
      cases hn
  | noInlineFragment hn =>
      obtain ⟨m, hm⟩ := hsel
      rw [SyntaxView.inlineFragment?_of_document (hv ▸ hm)] at hn
      cases hn
  | noSpread hn =>
      obtain ⟨m, hm⟩ := hsel
      rw [SyntaxView.spread?_of_document (hv ▸ hm)] at hn
      cases hn

/-- What is found in selections of the document is found in every view, and is of the document
itself. -/
theorem Flattens.transfer (hd : d.Closed) (hfragments : fragments.Within d)
    (hv : v.document = d.syntaxArena) (hw : w.document = d.syntaxArena) {answers : Bool → Prop}
    {sels : List SelectionNode} {clause : Option Clause} {fs : List Found}
    (h : Flattens ⟨schema, fragments, v⟩ t answers sels clause fs)
    (hsels : ∀ sel ∈ sels, d.syntaxArena.Resolves sel) :
    Flattens ⟨schema, fragments, w⟩ t answers sels clause fs ∧ ∀ f ∈ fs, f.Within d := by
  induction h with
  | nil => exact ⟨.nil, List.forall_mem_nil _⟩
  | @field id node field rest clause fs hn hf _ ih =>
      rw [List.forall_mem_cons] at hsels
      have hm := SyntaxView.field?_of_resolves hsels.1 hv hn
      obtain ⟨hrest, hwithin⟩ := ih hsels.2
      have hself : d.syntaxArena.field? node.id = some node := by
        rw [hd.arena.field_id hm]
        exact hm
      exact ⟨.field (SyntaxView.field?_of_document (hw ▸ hm)) hf hrest,
        List.forall_mem_cons.2 ⟨hself, hwithin⟩⟩
  | passed hp _ ih =>
      rw [List.forall_mem_cons] at hsels
      obtain ⟨hrest, hwithin⟩ := ih hsels.2
      exact ⟨.passed (hp.transfer hv hw hsels.1) hrest, hwithin⟩
  | @entered sel use rest clause fs fs' hopens hasked _ _ ih ih' =>
      rw [List.forall_mem_cons] at hsels
      obtain ⟨hopens', hhas⟩ := hopens.transfer hd hfragments hv hw hsels.1
      obtain ⟨hinner, hwithin⟩ := ih (hd.resolves_selectionsOf hv hhas)
      obtain ⟨hrest, hwithin'⟩ := ih' hsels.2
      -- the selections of the fragment are the same in both views
      have heq : v.selectionsOf use.selectionSet = w.selectionsOf use.selectionSet :=
        hhas.selectionsOf_eq hv hw
      exact ⟨.entered hopens' hasked (heq ▸ hinner) hrest,
        List.forall_mem_append.2 ⟨hwithin, hwithin'⟩⟩
  | deferred hopens hc hdefer hasked _ ih =>
      rw [List.forall_mem_cons] at hsels
      obtain ⟨hopens', hhas⟩ := hopens.transfer hd hfragments hv hw hsels.1
      obtain ⟨hrest, hwithin⟩ := ih hsels.2
      exact ⟨.deferred hopens' hc hdefer hasked hrest, List.forall_mem_cons.2 ⟨hhas, hwithin⟩⟩

theorem FlattensAll.transfer (hd : d.Closed) (hfragments : fragments.Within d)
    (hv : v.document = d.syntaxArena) (hw : w.document = d.syntaxArena) {answers : Bool → Prop}
    {sources : List ClausedSet} {fs : List Found}
    (h : FlattensAll ⟨schema, fragments, v⟩ t answers sources fs)
    (hsources : ∀ c ∈ sources, d.Has c.selectionSet) :
    FlattensAll ⟨schema, fragments, w⟩ t answers sources fs ∧ ∀ f ∈ fs, f.Within d := by
  induction h with
  | nil => exact ⟨.nil, List.forall_mem_nil _⟩
  | @cons c cs fs fs' hflat _ ih =>
      rw [List.forall_mem_cons] at hsources
      have heq : v.selectionsOf c.selectionSet = w.selectionsOf c.selectionSet :=
        hsources.1.selectionsOf_eq hv hw
      obtain ⟨hflat', hwithin⟩ := hflat.transfer hd hfragments hv hw
        (hd.resolves_selectionsOf hv hsources.1)
      obtain ⟨hrest, hwithin'⟩ := ih hsources.2
      exact ⟨.cons (heq ▸ hflat') hrest, List.forall_mem_append.2 ⟨hwithin, hwithin'⟩⟩

/-- What is found in sources that list selections of the document is of the document itself. -/
theorem FlattensAll.within (hd : d.Closed) (hfragments : fragments.Within d)
    (hv : v.document = d.syntaxArena) {answers : Bool → Prop} {sources : List ClausedSet}
    {fs : List Found} (h : FlattensAll ⟨schema, fragments, v⟩ t answers sources fs)
    (hsources : ∀ c ∈ sources, ∀ sel ∈ v.selectionsOf c.selectionSet, d.syntaxArena.Resolves sel) :
    ∀ f ∈ fs, f.Within d := by
  induction h with
  | nil => exact List.forall_mem_nil _
  | cons hflat _ ih =>
      rw [List.forall_mem_cons] at hsources
      obtain ⟨-, hwithin⟩ := hflat.transfer hd hfragments hv hv hsources.1
      exact List.forall_mem_append.2 ⟨hwithin, ih hsources.2⟩

end Setting

end Transfer

/-! ## What is made without revision -/

/-- The sub-selections of an occurrence, if it can be reached and has some. -/
def FoundField.source? (o : FoundField) : Option ClausedSet :=
  o.clause.bind fun c => o.node.selectionSet.map fun set => ⟨set, c⟩

namespace CompileInput

variable {input : CompileInput σ}

/-- What is built below a selection that some occurrences make up. -/
def subTask (input : CompileInput σ) (task : BuildTask σ) (os : List FoundField) (key : String)
    (field : Field) (t : ObjectType) : BuildTask σ where
  objectType := t
  sources := os.filterMap (·.source?)
  path := task.path ++ [⟨field, key⟩]
  optimizers := task.optimizers ++ input.pipeline.below task.objectType field.name

theorem passive_subTask (hpassive : input.pipeline.Passive) {task : BuildTask σ}
    (htask : ∀ o ∈ task.optimizers, o.Passive) {os : List FoundField} {key : String}
    {field : Field} {t : ObjectType} :
    ∀ o ∈ (input.subTask task os key field t).optimizers, o.Passive := by
  intro o ho
  rcases List.mem_append.1 ho with ho | ho
  · exact htask o ho
  · exact hpassive.below _ _ o ho

/-- The selection stands for some occurrences, and `below` says how the sets below it were made
from theirs. -/
structure SelectionOf (input : CompileInput σ) (variants : VariantMap)
    (below : BuildTask σ → SelectionSet → Prop) (task : BuildTask σ) (o : FoundField)
    (os : List FoundField) (s : Selection) : Prop where
  field : s.field = o.field
  condition : s.condition = (CollectedField.ofFound o os).condition
  leaf : o.node.selectionSet = none → s.selectionSet = none
  inner : ∀ {set}, o.node.selectionSet = some set → ∃ key v, s.selectionSet = some key ∧
    variants.get? key = some v ∧
    List.Forall₂
      (fun t e => e.1 = t.name ∧
        below (input.subTask task (o :: os) s.responseKey o.field t) e.2)
      (input.schema.possibleTypes o.field.type.innermost) v.sets.entries

/-- The selection set holds what was found in the sources of the task, and nothing else. -/
structure Spelled (input : CompileInput σ) (variants : VariantMap)
    (below : BuildTask σ → SelectionSet → Prop) (task : BuildTask σ) (answers : Bool → Prop)
    (fs : List Found) (set : SelectionSet) : Prop where
  flattens : input.setting.FlattensAll task.objectType answers task.sources fs
  within : ∀ f ∈ fs, f.Within input.document
  objectType : set.objectType = task.objectType
  deferred : List.Forall₂ (fun d e => ∃ sub, below (task.deferral d) sub ∧ e = d.finish sub)
    (fs.filterMap Found.deferral?) set.deferred
  selection : ∀ s ∈ set.selections, ∃ o os, occurrencesAt s.responseKey fs = o :: os ∧
    input.SelectionOf variants below task o os s
  exists_selection : ∀ {key}, occurrencesAt key fs ≠ [] →
    ∃ s ∈ set.selections, s.responseKey = key

/-- The sub-selections of reachable occurrences can be read in any view of the document. -/
theorem sourcesOf_live {view : SyntaxView} {os : List FoundField}
    (hos : ∀ o ∈ os, view.field? o.node.id = some o.node) :
    sourcesOf view (os.filterMap (·.live?)) = os.filterMap (·.source?) := by
  rw [sourcesOf, List.filterMap_filterMap]
  refine List.filterMap_congr fun o ho => ?_
  rcases o with ⟨node, field, _ | clause⟩
  · rfl
  · have hn : view.field? node.id = some node := hos _ ho
    simp [FoundField.live?, FoundField.source?, hn]

section Made

variable {variants : VariantMap} {below : BuildTask σ → SelectionSet → Prop} {task : BuildTask σ}
  {fs : List Found} {key : String} {o : FoundField} {os : List FoundField}

theorem sourcesOf_found (hwithin : ∀ f ∈ fs, f.Within input.document)
    (hocc : occurrencesAt key fs = o :: os) {view : SyntaxView}
    (hview : view.document = input.document.syntaxArena) :
    sourcesOf view (CollectedField.ofFound o os).live = (o :: os).filterMap (·.source?) := by
  refine sourcesOf_live fun o' ho' => SyntaxView.field?_of_document ?_
  rw [hview]
  exact hwithin _ (mem_occurrencesAt.1 (hocc ▸ ho')).1

/-- What the entry of some occurrences becomes is the selection of these occurrences. -/
theorem Becomes.selectionOf (hwithin : ∀ f ∈ fs, f.Within input.document)
    (hocc : occurrencesAt key fs = o :: os) {jobs : List ChildJob} {s : Selection}
    (h : Becomes task.objectType jobs (key, .ofFound o os) s)
    (hchildren : ∀ job ∈ jobs, input.ChildMade variants below task job) :
    input.SelectionOf variants below task o os s := by
  obtain ⟨draft, hdraft⟩ := h.draft
  have hkey : s.responseKey = key := h.responseKey
  refine ⟨?_, ?_, h.leaf, fun hset => ?_⟩
  · rw [hdraft]
    rfl
  · rw [hdraft]
    rfl
  · obtain ⟨id, hsel, hjob⟩ := h.inner hset
    obtain ⟨v, view, hview, hv, hvariants⟩ := hchildren _ hjob
    -- the task of a job is that of its occurrences
    have htask : ∀ t, input.childTask task
        (sourcesOf view (CollectedField.ofFound o os).live)
        (entryJob task.objectType (key, .ofFound o os) id) t =
        input.subTask task (o :: os) s.responseKey o.field t := by
      intro t
      rw [sourcesOf_found hwithin hocc hview, hkey]
      rfl
    refine ⟨id, v, hsel, hv, hvariants.imp fun t e he => ⟨he.1, ?_⟩⟩
    rw [← htask t]
    exact he.2

/-- The selections stand for the response keys under which something was found, in order. -/
structure Listed (input : CompileInput σ) (variants : VariantMap)
    (below : BuildTask σ → SelectionSet → Prop) (task : BuildTask σ) (answers : Bool → Prop)
    (fs : List Found) (set : SelectionSet) : Prop where
  flattens : input.setting.FlattensAll task.objectType answers task.sources fs
  within : ∀ f ∈ fs, f.Within input.document
  objectType : set.objectType = task.objectType
  deferred : List.Forall₂ (fun d e => ∃ sub, below (task.deferral d) sub ∧ e = d.finish sub)
    (fs.filterMap Found.deferral?) set.deferred
  selections : List.Forall₂
    (fun key s => s.responseKey = key ∧ ∃ o os, occurrencesAt key fs = o :: os ∧
      (∃ inner, s.toSelectionDraft =
        { (CollectedField.ofFound o os).draft task.objectType key with selectionSet := inner }) ∧
      input.SelectionOf variants below task o os s)
    (Collected.empty.mergeAll fs).fields.keys set.selections

/-- Where the optimizers of a task are passive, its selection set lists what was found. -/
theorem Made.listed {set : SelectionSet} {answers : Bool → Prop}
    (hd : input.document.Closed) (hfragments : input.fragments.Within input.document)
    (hpassive : ∀ o ∈ task.optimizers, o.Passive)
    (hanswers : ∀ s, (input.scope (input.contextOf task) task.optimizers s).Answers answers)
    (hsources : ∀ c ∈ task.sources, input.document.Has c.selectionSet)
    (h : input.Made variants below task set) :
    ∃ fs, input.Listed variants below task answers fs set := by
  obtain ⟨hcollect, hdeferrals, hoptimize, -, -, hfinished, hchildren⟩ := h
  rename_i s s₁ s₂ s₃ c m deferred selections jobs
  obtain ⟨memory, hwalk, -⟩ := runs_collect.1 hcollect
  obtain ⟨fs, hfs, rfl⟩ := CollectScope.collectAll_flattens (hanswers s) hwalk
  -- what the walk has found in its own view stands in the document
  obtain ⟨hflattens, hwithin⟩ :
      input.setting.FlattensAll task.objectType answers task.sources fs ∧
        ∀ f ∈ fs, f.Within input.document :=
    Setting.FlattensAll.transfer hd hfragments rfl rfl hfs hsources
  -- the drafts have not been revised
  have hm : m = drafts (Collected.empty.mergeAll fs) task.objectType := by
    obtain ⟨s', hunrevised, -⟩ := optimize_of_passive hpassive (drafts_keyed _ _) s₂
    exact (hoptimize.unique hunrevised).1
  subst hm
  have hnodes : ∀ {node field clause}, Found.field node field clause ∈ fs →
      input.document.syntaxArena.field? node.id = some node := fun hmem => hwithin _ hmem
  obtain ⟨hforall, -⟩ := finished_collected hnodes hfinished
  refine ⟨fs, hflattens, hwithin, rfl, ?_, ?_⟩
  · rwa [Collected.deferrals_mergeAll, show Collected.empty.deferrals = [] from rfl,
      List.nil_append] at hdeferrals
  · refine List.forall₂_map_left_iff.2 ?_
    refine ((List.forall₂_and_left _ _).2 ⟨fun _ => id, hforall⟩).imp ?_
    rintro e s ⟨he, hbecomes⟩
    obtain ⟨o, os, hocc, heq⟩ := Collected.mem_entries_collected_iff.1 he
    have hkey := hbecomes.responseKey
    rw [heq] at hbecomes
    exact ⟨hkey, o, os, hocc, hbecomes.draft, hbecomes.selectionOf hwithin hocc hchildren⟩

/-- What lists the response keys in order has a selection for each of them. -/
theorem Listed.spelled {set : SelectionSet} {answers : Bool → Prop}
    (h : input.Listed variants below task answers fs set) :
    input.Spelled variants below task answers fs set := by
  refine ⟨h.flattens, h.within, h.objectType, h.deferred, fun s hs => ?_, fun {key} hkey => ?_⟩
  · obtain ⟨key, -, rfl, o, os, hocc, -, hof⟩ := exists_of_mem_right h.selections hs
    exact ⟨o, os, hocc, hof⟩
  · obtain ⟨o, os, hocc⟩ := List.exists_cons_of_ne_nil hkey
    have hmem : key ∈ (Collected.empty.mergeAll fs).fields.keys :=
      OrderedMap.mem_keys_iff.2 ⟨_, Collected.get?_collected_iff.2 ⟨o, os, hocc, rfl⟩⟩
    obtain ⟨s, hs, hresponse, -⟩ := exists_of_mem_left h.selections hmem
    exact ⟨s, hs, hresponse⟩

/-- Where the optimizers of a task are passive, its selection set is spelled out by what was
found. -/
theorem Made.spelled {set : SelectionSet} {answers : Bool → Prop}
    (hd : input.document.Closed) (hfragments : input.fragments.Within input.document)
    (hpassive : ∀ o ∈ task.optimizers, o.Passive)
    (hanswers : ∀ s, (input.scope (input.contextOf task) task.optimizers s).Answers answers)
    (hsources : ∀ c ∈ task.sources, input.document.Has c.selectionSet)
    (h : input.Made variants below task set) :
    ∃ fs, input.Spelled variants below task answers fs set :=
  (Made.listed hd hfragments hpassive hanswers hsources h).imp fun _ hlisted => hlisted.spelled

end Made

/-! ## What is included -/

namespace Spelled

variable {variants : VariantMap} {below : BuildTask σ → SelectionSet → Prop} {task : BuildTask σ}
  {answers : Bool → Prop} {fs : List Found} {set : SelectionSet} {vars : Variables}

/-- Where a selection has a key, the sets below it were made from its occurrences. -/
theorem child (h : input.Spelled variants below task answers fs set) {s : Selection}
    (hs : s ∈ set.selections) {key : SelectionSetId} (hkey : s.selectionSet = some key) :
    ∃ o os v, occurrencesAt s.responseKey fs = o :: os ∧ s.field = o.field ∧
      variants.get? key = some v ∧
      List.Forall₂
        (fun t e => e.1 = t.name ∧
          below (input.subTask task (o :: os) s.responseKey o.field t) e.2)
        (input.schema.possibleTypes o.field.type.innermost) v.sets.entries := by
  obtain ⟨o, os, hocc, hof⟩ := h.selection s hs
  cases hinner : o.node.selectionSet with
  | none =>
      rw [hof.leaf hinner] at hkey
      cases hkey
  | some inner =>
      obtain ⟨key', v, hkey', hv, hforall⟩ := hof.inner hinner
      rw [hkey, Option.some_inj] at hkey'
      subst hkey'
      exact ⟨o, os, v, hocc, hof.field, hv, hforall⟩

/-- A selection is included if one of its occurrences is reached. -/
theorem mem_included_iff (h : input.Spelled variants below task answers fs set) {s : Selection}
    (hs : s ∈ set.selections) :
    s ∈ set.included vars ↔
      ∃ o ∈ occurrencesAt s.responseKey fs, vars.reading.holds o.clause = true := by
  obtain ⟨o, os, hocc, hof⟩ := h.selection s hs
  have hcondition : s.isIncluded vars =
      (CollectedField.ofFound o os).condition.isIncluded vars := by
    rw [SelectionDraft.isIncluded, hof.condition]
  rw [SelectionSet.included, List.mem_filter, and_iff_right hs, hcondition, hocc]
  exact CollectedField.isIncluded_ofFound

/-- A response key is included if one of its occurrences is reached. -/
theorem exists_included_iff (h : input.Spelled variants below task answers fs set)
    {key : String} :
    (∃ s ∈ set.included vars, s.responseKey = key) ↔
      ∃ o ∈ occurrencesAt key fs, vars.reading.holds o.clause = true := by
  constructor
  · rintro ⟨s, hs, rfl⟩
    exact (h.mem_included_iff (List.mem_of_mem_filter hs)).1 hs
  · rintro ⟨o, ho, hholds⟩
    obtain ⟨s, hs, hkey⟩ := h.exists_selection (List.ne_nil_of_mem ho)
    exact ⟨s, (h.mem_included_iff hs).2 ⟨o, hkey ▸ ho, hholds⟩, hkey⟩

end Spelled

end CompileInput

end QueryPlan
