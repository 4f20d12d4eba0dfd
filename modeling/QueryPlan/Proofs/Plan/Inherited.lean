import QueryPlan.Proofs.Plan.Levels
import QueryPlan.Proofs.Plan.Reference

/-!
# What is below an excluded field

The sub-selections of a field are built from its occurrences, each under a clause of its own. The
selection of the field is included where one of the clauses holds, and although redundant clauses
are dropped from its condition, nothing that is collected below is reached where none of them
does. So whatever is included below a selection is included along with it, and it hangs on those
occurrences of the field that it can be reached from. The exception are selections that optimizers
put in below a field, which are always included.
-/

set_option autoImplicit false

namespace QueryPlan

variable {σ : Type} {vars : Variables}

/-! ## Reading with more syntax in view -/

namespace Setting

section Extends

variable {schema : Schema} {fragments : FragmentIndex} {v w : SyntaxView} {t : ObjectType}

theorem Uses.extend (hvw : v.Extends w) {sel : SelectionNode} {u : FragmentUse}
    (h : Uses ⟨schema, fragments, v⟩ sel u) : Uses ⟨schema, fragments, w⟩ sel u := by
  cases h with
  | inlineFragment hn => exact .inlineFragment (hvw.inlineFragment hn)
  | spread hn hf => exact .spread (hvw.spread hn) hf

theorem Opens.extend (hvw : v.Extends w) {sel : SelectionNode} {u : FragmentUse}
    (h : Opens ⟨schema, fragments, v⟩ t sel u) : Opens ⟨schema, fragments, w⟩ t sel u := by
  obtain ⟨huse, hmeets⟩ := opens_iff.1 h
  exact opens_iff.2 ⟨huse.extend hvw, hmeets⟩

theorem mem_selectionsOf_extend (hvw : v.Extends w) {id : SelectionSetId} {sel : SelectionNode}
    (h : sel ∈ v.selectionsOf id) : sel ∈ w.selectionsOf id := by
  rw [SyntaxView.selectionsOf] at h
  cases hn : v.selectionSet? id with
  | none =>
      rw [hn] at h
      exact absurd h List.not_mem_nil
  | some node =>
      rw [hn] at h
      rw [SyntaxView.selectionsOf, hvw.selectionSet hn]
      exact h

/-- What is collected is still collected when more syntax is in view. -/
theorem Collects.extend (hvw : v.Extends w) {keep : List DirectiveNode → Bool}
    {sels : List SelectionNode} {node : FieldNode}
    (h : Collects ⟨schema, fragments, v⟩ keep t sels node) :
    Collects ⟨schema, fragments, w⟩ keep t sels node := by
  induction h with
  | field hmem hn hkeep => exact .field hmem (hvw.field hn) hkeep
  | fragment hmem hopens hkeep _ ih =>
      refine .fragment hmem (hopens.extend hvw) hkeep ?_
      exact ih.of_mem fun _ hsel => mem_selectionsOf_extend hvw hsel

/-- And so is every fragment that is entered. -/
theorem Enters.extend (hvw : v.Extends w) {keep : List DirectiveNode → Bool}
    {sels : List SelectionNode} {use : FragmentUse}
    (h : Enters ⟨schema, fragments, v⟩ keep t sels use) :
    Enters ⟨schema, fragments, w⟩ keep t sels use := by
  induction h with
  | here hmem hopens hkeep => exact .here hmem (hopens.extend hvw) hkeep
  | inside hmem hopens hkeep _ ih =>
      refine .inside hmem (hopens.extend hvw) hkeep ?_
      exact ih.of_mem fun _ hsel => mem_selectionsOf_extend hvw hsel

end Extends

end Setting

/-! ## The occurrences of a selection -/

/-- Some occurrences make up the condition of a selection, and everything below it for a type that
was not put in while planning hangs on them: what is included, selection or deferred fragment, is
found below an occurrence whose clause holds. -/
structure Plan.Inherits (p : Plan) (schema : Schema) (fragments : FragmentIndex)
    (sel : Selection) (below : SelectionSet) (occurrences : List Occurrence) : Prop where
  nodes : ∀ o ∈ occurrences, o.node ∈ sel.nodes
  condition : sel.condition =
    (occurrences.map (·.clause)).foldl IncludeCondition.addClause .never
  selections : ∀ vars, ∀ x ∈ below.included vars, x.internal = false → ∃ o ∈ occurrences,
    o.clause.isSatisfied vars = true ∧ ∃ above inner node, p.view.field? o.node = some above ∧
      above.selectionSet = some inner ∧ node.id ∈ x.nodes ∧
      Setting.Collects ⟨schema, fragments, p.view⟩ vars.keep below.objectType
        (p.view.selectionsOf inner) node
  deferred : ∀ vars, ∀ d ∈ below.deferred, d.isIncluded vars = true → ∃ o ∈ occurrences,
    o.clause.isSatisfied vars = true ∧ ∃ above inner use, p.view.field? o.node = some above ∧
      above.selectionSet = some inner ∧ d.source = use.source ∧
      Setting.Enters ⟨schema, fragments, p.view⟩ vars.keep below.objectType
        (p.view.selectionsOf inner) use

/-- A selection is included where the clause of one of its occurrences holds. -/
theorem Plan.Inherits.isIncluded {p : Plan} {schema : Schema} {fragments : FragmentIndex}
    {sel : Selection} {below : SelectionSet} {occurrences : List Occurrence}
    (h : p.Inherits schema fragments sel below occurrences) {o : Occurrence}
    (ho : o ∈ occurrences) (hsat : o.clause.isSatisfied vars = true) :
    sel.isIncluded vars = true := by
  rw [SelectionDraft.isIncluded, h.condition, IncludeCondition.isIncluded_foldl_addClause]
  exact Or.inr ⟨o.clause, List.mem_map_of_mem ho, hsat⟩

/-- Nothing that was collected below a selection is included where the selection is not. -/
theorem Plan.Inherits.isIncluded_of_below {p : Plan} {schema : Schema} {fragments : FragmentIndex}
    {sel : Selection} {below : SelectionSet} {occurrences : List Occurrence}
    (h : p.Inherits schema fragments sel below occurrences)
    (hincluded : (∃ x ∈ below.selections, x.internal = false ∧ x.isIncluded vars = true) ∨
      ∃ d ∈ below.deferred, d.isIncluded vars = true) : sel.isIncluded vars = true := by
  rcases hincluded with ⟨x, hx, hcollected, hincluded⟩ | ⟨d, hd, hincluded⟩
  · have hx : x ∈ below.included vars := List.mem_filter.2 ⟨hx, hincluded⟩
    obtain ⟨o, ho, hsat, -⟩ := h.selections vars x hx hcollected
    exact h.isIncluded ho hsat
  · obtain ⟨o, ho, hsat, -⟩ := h.deferred vars d hd hincluded
    exact h.isIncluded ho hsat

namespace CompileInput

variable {input : CompileInput σ} {p : Plan} {fuel : Nat} {task : BuildTask σ}
  {s s₁ s₂ s₃ s₄ s' : CompileState σ} {c : Collected}
  {deferred : List (DeferredFragment SelectionSet)} {m : SelectionMap}
  {selections : List Selection} {jobs : List ChildJob}

/-- A source of sub-selections is what stands inside an occurrence, under its clause. -/
theorem exists_of_mem_sourcesOf {view : SyntaxView} {occurrences : List Occurrence}
    {source : ClausedSet} (h : source ∈ sourcesOf view occurrences) :
    ∃ o ∈ occurrences, source.clause = o.clause ∧ ∃ node, view.field? o.node = some node ∧
      node.selectionSet = some source.selectionSet := by
  obtain ⟨o, ho, hsource⟩ := List.mem_filterMap.1 h
  obtain ⟨set, hset, rfl⟩ := Option.map_eq_some_iff.1 hsource
  obtain ⟨node, hn, hset⟩ := Option.bind_eq_some_iff.1 hset
  exact ⟨o, ho, rfl, node, hn, hset⟩

namespace Level

/-- A selection that was not put in is made up of the occurrences found under its response key,
and its sub-selections are those of the occurrences that can be reached. -/
theorem exists_occurrences (hschema : input.schema.Built) (hdocument : input.document.Built)
    (hlawful : input.pipeline.Lawful)
    (h : input.Level p fuel task s s₁ s₂ s₃ s₄ s' c deferred m selections jobs) {fs : List Found}
    (hfs : c = Collected.empty.mergeAll fs) {sel : Selection} (hsel : sel ∈ selections)
    (hcollected : sel.internal = false) :
    ∃ os : List FoundField, (∀ o ∈ os, .field o.node o.field o.clause ∈ fs) ∧
      sel.nodes = os.map (·.node.id) ∧
      sel.condition = (os.filterMap (·.clause)).foldl IncludeCondition.addClause .never ∧
      ∀ {child}, sel.selectionSet = some child →
        ∃ job ∈ jobs, job.key = child ∧ job.occurrences = os.filterMap (·.live?) := by
  obtain ⟨d, hstems, hstands⟩ :=
    exists_stems hschema hdocument hlawful h.sound h.prepares hsel
  obtain ⟨set, hdraft⟩ := hstands.draft
  cases hstems with
  | internal eq =>
      obtain ⟨node, field, -, -, rfl⟩ := internalSelection_eq_ok_iff.1 eq
      rw [hdraft] at hcollected
      cases hcollected
  | @collected e mem =>
      -- no two entries have the same first node, so the draft of this one finds its occurrences
      obtain ⟨-, fs', hc, hfound⟩ := h.sound.found hdocument h.prepares.collect
      have hfinds : Finds (liveOccurrences c) e := by
        subst hc
        obtain ⟨hfirst, hnodup⟩ := firstNode?_collected hfound
        obtain ⟨node, -, -, hn⟩ := hfirst e mem
        exact ⟨node.id, hn, find?_live mem hn hnodup⟩
      rw [hfs] at mem
      obtain ⟨o, os, hocc, he⟩ := Collected.mem_entries_collected_iff.1 mem
      refine ⟨o :: os, fun o' ho' => (mem_occurrencesAt.1 (hocc ▸ ho')).1, ?_, ?_, ?_⟩
      · rw [hdraft, he]
        rfl
      · rw [hdraft, he]
        rfl
      · intro child hchild
        cases hset : (e.2.draft task.objectType e.1).selectionSet with
        | none =>
            rw [hstands.leaf hset] at hchild
            cases hchild
        | some inner =>
            obtain ⟨key, hkey, hjob⟩ := hstands.inner hset
            rw [hchild, Option.some_inj] at hkey
            refine ⟨_, hjob, hkey.symm, ?_⟩
            have hlive : e.2.live = (o :: os).filterMap (·.live?) := by
              rw [he]
              rfl
            exact (hfinds.occurrencesOf (t := task.objectType)).trans hlive

/-- A selection that was not put in is included only where a source is reached that one of its
nodes is collected from. -/
theorem exists_source_of_included (hschema : input.schema.Built)
    (hdocument : input.document.Built) (hlawful : input.pipeline.Lawful)
    (h : input.Level p fuel task s s₁ s₂ s₃ s₄ s' c deferred m selections jobs) {x : Selection}
    (hx : x ∈ selections) (hcollected : x.internal = false) (hincluded : x.isIncluded vars = true) :
    ∃ source ∈ task.sources, source.clause.isSatisfied vars = true ∧ ∃ node : FieldNode,
      node.id ∈ x.nodes ∧
      Setting.Collects ⟨input.schema, input.fragments, s.view input.document⟩ vars.keep
        task.objectType ((s.view input.document).selectionsOf source.selectionSet) node := by
  obtain ⟨fs, hflat, hc⟩ := h.found
  obtain ⟨os, hos, hnodes, hcondition, -⟩ :=
    h.exists_occurrences hschema hdocument hlawful hc hx hcollected
  -- one of the occurrences is reached
  have hnever : IncludeCondition.never.isIncluded vars ≠ true := by simp
  rw [SelectionDraft.isIncluded, hcondition, IncludeCondition.isIncluded_foldl_addClause,
    or_iff_right hnever] at hincluded
  obtain ⟨clause, hclause, hsat⟩ := hincluded
  obtain ⟨o, ho, hclause⟩ := List.mem_filterMap.1 hclause
  have hbrings : Found.Brings ⟨input.schema, input.fragments, s.view input.document⟩
      vars.reading task.objectType o.node (.field o.node o.field o.clause) := by
    refine ⟨rfl, ?_⟩
    rw [hclause]
    exact hsat
  obtain ⟨source, hsource, hholds, hcollects⟩ :=
    (hflat.brings_iff vars.reading o.node).1 ⟨_, hos o ho, hbrings⟩
  have hmem : o.node.id ∈ x.nodes := hnodes ▸ List.mem_map_of_mem ho
  exact ⟨source, hsource, hholds, o.node, hmem, hcollects⟩

/-- A deferred fragment is included only where a source is reached that it is entered from. -/
theorem exists_source_of_deferred (hschema : input.schema.WellNamed)
    (hlawful : input.pipeline.Lawful)
    (h : input.Level p fuel task s s₁ s₂ s₃ s₄ s' c deferred m selections jobs)
    {e : DeferredFragment SelectionSet} (he : e ∈ deferred) (hincluded : e.isIncluded vars = true) :
    ∃ source ∈ task.sources, source.clause.isSatisfied vars = true ∧ ∃ use,
      e.source = use.source ∧
      Setting.Enters ⟨input.schema, input.fragments, s.view input.document⟩ vars.keep
        task.objectType ((s.view input.document).selectionsOf source.selectionSet) use := by
  obtain ⟨fs, hflat, rfl⟩ := h.found
  obtain ⟨d, hd, -, set, -, rfl, -⟩ := h.deferral hschema hlawful he
  have hsat : d.clause.isSatisfied vars = true := by
    rwa [← IncludeCondition.isIncluded_ofClause]
  exact hflat.enters vars.reading (Collected.mem_deferrals_collected.1 hd) hsat

/-- A selection that was put in is always included. -/
theorem isIncluded_of_internal (hschema : input.schema.Built) (hdocument : input.document.Built)
    (hlawful : input.pipeline.Lawful)
    (h : input.Level p fuel task s s₁ s₂ s₃ s₄ s' c deferred m selections jobs) {sel : Selection}
    (hsel : sel ∈ selections) (hinternal : sel.internal = true) : sel.isIncluded vars = true := by
  obtain ⟨d, hstems, hstands⟩ :=
    exists_stems hschema hdocument hlawful h.sound h.prepares hsel
  obtain ⟨set, hdraft⟩ := hstands.draft
  cases hstems with
  | collected mem =>
      rw [hdraft] at hinternal
      cases hinternal
  | internal eq =>
      obtain ⟨node, field, -, -, rfl⟩ := internalSelection_eq_ok_iff.1 eq
      rw [hdraft]
      rfl

end Level

/-- What is below a selection hangs on its occurrences, if it was built from their
sub-selections. -/
theorem inherits_of_occurrences (hschema : input.schema.Built) (hdocument : input.document.Built)
    (hlawful : input.pipeline.Lawful) (hp : p.document = input.document) {view : SyntaxView}
    {sel : Selection} {os : List FoundField} (hview : view.Extends p.view)
    (hnodes : sel.nodes = os.map (·.node.id))
    (hcondition : sel.condition =
      (os.filterMap (·.clause)).foldl IncludeCondition.addClause .never)
    (hsources : task.sources = sourcesOf view (os.filterMap (·.live?)))
    (h : input.Level p fuel task s s₁ s₂ s₃ s₄ s' c deferred m selections jobs) :
    p.Inherits input.schema input.fragments sel ⟨task.objectType, selections, deferred⟩
      (os.filterMap (·.live?)) := by
  have hextends : (s.view input.document).Extends p.view :=
    SyntaxView.extends_plan hp (h.grows_start hschema.wellNamed hlawful)
  refine { nodes := fun o ho => ?_, condition := ?_, selections := ?_, deferred := ?_ }
  · obtain ⟨f, hf, hlive⟩ := List.mem_filterMap.1 ho
    obtain ⟨clause, -, rfl⟩ := Option.map_eq_some_iff.1 hlive
    exact hnodes ▸ List.mem_map_of_mem hf
  · rw [hcondition, List.map_filterMap]
    congr 1
    refine List.filterMap_congr fun f _ => ?_
    cases hclause : f.clause <;> simp [FoundField.live?, hclause]
  · intro vars x hx hcollected
    obtain ⟨hx, hincluded⟩ := List.mem_filter.1 hx
    obtain ⟨source, hsource, hsat, node, hnode, hcollects⟩ :=
      h.exists_source_of_included hschema hdocument hlawful hx hcollected hincluded
    rw [hsources] at hsource
    obtain ⟨o, ho, hclause, above, habove, hinner⟩ := exists_of_mem_sourcesOf hsource
    refine ⟨o, ho, hclause ▸ hsat, above, source.selectionSet, node, hview.field habove, hinner,
      hnode, ?_⟩
    exact (hcollects.extend hextends).of_mem fun _ hsel =>
      Setting.mem_selectionsOf_extend hextends hsel
  · intro vars d hd hincluded
    obtain ⟨source, hsource, hsat, use, huse, henters⟩ :=
      h.exists_source_of_deferred hschema.wellNamed hlawful hd hincluded
    rw [hsources] at hsource
    obtain ⟨o, ho, hclause, above, habove, hinner⟩ := exists_of_mem_sourcesOf hsource
    refine ⟨o, ho, hclause ▸ hsat, above, source.selectionSet, use, hview.field habove, hinner,
      huse, ?_⟩
    exact (henters.extend hextends).of_mem fun _ hsel =>
      Setting.mem_selectionsOf_extend hextends hsel

/-- The occurrences that a selection was collected from are those that what is below it was built
from. -/
theorem Level.exists_inherits (hschema : input.schema.Built) (hdocument : input.document.Built)
    (hlawful : input.pipeline.Lawful) (hp : p.document = input.document)
    (h : input.Level p fuel task s s₁ s₂ s₃ s₄ s' c deferred m selections jobs) {sel : Selection}
    (hsel : sel ∈ selections) (hcollected : sel.internal = false) {child : SelectionSetId}
    (hchild : sel.selectionSet = some child) {type : String} {below : SelectionSet}
    (hbelow : p.selectionSet child type = .ok below) :
    ∃ occurrences, p.Inherits input.schema input.fragments sel below occurrences := by
  obtain ⟨fs, -, hc⟩ := h.found
  obtain ⟨os, -, hnodes, hcondition, hjob⟩ :=
    h.exists_occurrences hschema hdocument hlawful hc hsel hcollected
  obtain ⟨job, hjob, rfl, hoccurrences⟩ := hjob hchild
  obtain ⟨s₅, v, -, hgrows₅, hv, hentries⟩ := h.child hschema.wellNamed hlawful hjob
  have hentry := Plan.mem_entries_of_selectionSet hv hbelow
  obtain ⟨t, -, -, r, u, hremains⟩ := hentries _ hentry
  obtain ⟨_, _, _, _, _, _, _, _, _, _, hlevel, hbuilt⟩ := hremains.level
  obtain rfl : below = _ := hbuilt
  have hsources : (input.childTask task
      (sourcesOf (s₅.view input.document) job.occurrences) job t).sources =
      sourcesOf (s₅.view input.document) (os.filterMap (·.live?)) := by
    rw [← hoccurrences]
    rfl
  have hview := SyntaxView.extends_plan hp hgrows₅
  exact ⟨_, inherits_of_occurrences hschema hdocument hlawful hp hview hnodes hcondition hsources
    hlevel⟩

/-- **Nothing below an excluded selection is included**, but for what optimizers put in: what is
included for a type below a selection is included along with it, and hangs on the occurrences
that the selection was collected from. -/
theorem included_of_below (hschema : input.schema.Built) (hdocument : input.document.Built)
    (hlawful : input.pipeline.Lawful) {bound : Nat} {name : Option String} {memory memory' : σ}
    (h : input.compileWithin bound name memory = (.ok p, memory'))
    {key child : SelectionSetId} {type type' : String} {set part below : SelectionSet}
    {sel : Selection} (hset : p.selectionSet key type = .ok set) (hpart : part ∈ set.parts)
    (hsel : sel ∈ part.selections) (hchild : sel.selectionSet = some child)
    (hbelow : p.selectionSet child type' = .ok below) :
    (∀ vars, ((∃ x ∈ below.selections, x.internal = false ∧ x.isIncluded vars = true) ∨
      ∃ d ∈ below.deferred, d.isIncluded vars = true) → sel.isIncluded vars = true) ∧
    (sel.internal = false →
      ∃ occurrences, p.Inherits input.schema input.fragments sel below occurrences) := by
  have hp : p.document = input.document :=
    (compiled_of_compileWithin hschema hdocument hlawful h).document
  obtain ⟨n, task, t, u, hremains⟩ := exists_remains hschema hdocument hlawful h hset hpart
  obtain ⟨_, s₁, s₂, s₃, s₄, c, deferred, m, selections, jobs, hlevel, rfl⟩ := hremains.level
  have hinherits : sel.internal = false →
      ∃ occurrences, p.Inherits input.schema input.fragments sel below occurrences :=
    fun hcollected =>
      hlevel.exists_inherits hschema hdocument hlawful hp hsel hcollected hchild hbelow
  refine ⟨fun vars hincluded => ?_, hinherits⟩
  cases hinternal : sel.internal with
  | true => exact hlevel.isIncluded_of_internal hschema hdocument hlawful hsel hinternal
  | false =>
      obtain ⟨occurrences, hbelow⟩ := hinherits hinternal
      exact hbelow.isIncluded_of_below hincluded

end CompileInput

/-! ## What is put in below an excluded field -/

/-- Whether a selection of the root passes a test together with what is below it for a type. -/
def Plan.rootBranch (p : Plan) (test : Selection → SelectionSet → Bool) : Bool :=
  match p.rootSelectionSet with
  | .error _ => false
  | .ok set =>
    set.selections.any fun sel =>
      (sel.selectionSet.bind p.variants.get?).any fun v => v.sets.entries.any fun e => test sel e.2

theorem Plan.exists_rootBranch {p : Plan} {test : Selection → SelectionSet → Bool}
    (h : p.rootBranch test = true) : ∃ set sel child type below, p.rootSelectionSet = .ok set ∧
      sel ∈ set.selections ∧ sel.selectionSet = some child ∧
      p.selectionSet child type = .ok below ∧ test sel below = true := by
  unfold rootBranch at h
  cases hset : p.rootSelectionSet with
  | error e =>
      rw [hset] at h
      cases h
  | ok set =>
      rw [hset] at h
      obtain ⟨sel, hsel, h⟩ := List.any_eq_true.1 h
      obtain ⟨v, hv, h⟩ := (Option.any_eq_true _ _).1 h
      obtain ⟨child, hchild, hv⟩ := Option.bind_eq_some_iff.1 hv
      obtain ⟨⟨type, below⟩, he, htest⟩ := List.any_eq_true.1 h
      have hbelow : p.selectionSet child type = .ok below :=
        selectionSet_eq_ok_iff.2 ⟨v, hv, OrderedMap.get?_eq_some_iff.2 he⟩
      exact ⟨set, sel, child, type, below, rfl, hsel, hchild, hbelow, htest⟩

namespace Linked

/-- Puts in the name of the type below the conditional links of the root. -/
def injectingBelow : CompileInput Journal where
  schema := schema
  document := conditional
  fragments := conditionalFragments
  pipeline := Pipeline.empty.withOptimizer
    (Rule.optimizer ⟨none, some ["next"], .insert (.node ⟨0⟩) none none⟩)

theorem injectingBelow_lawful : injectingBelow.pipeline.Lawful :=
  Pipeline.passive_empty.lawful.withOptimizer (Rule.lawful_optimizer _)

/-- The variable `b` is true, and no other. -/
def onlyB : Variables := fun v => some (v == "b")

/-- Whether something was put in below a selection that is excluded, and something was not. -/
def injectsExcluded (sel : Selection) (below : SelectionSet) : Bool :=
  !sel.internal && !sel.isIncluded onlyB && below.selections.any (fun x => !x.internal) &&
    below.selections.any fun x => x.internal && x.isIncluded onlyB

theorem exists_injectsExcluded : ∃ p memory set sel child type below,
    injectingBelow.compileWithin 10 none [] = (.ok p, memory) ∧ p.rootSelectionSet = .ok set ∧
      sel ∈ set.selections ∧ sel.selectionSet = some child ∧
      p.selectionSet child type = .ok below ∧ injectsExcluded sel below = true := by
  obtain ⟨p, memory, h, htest⟩ := exists_eq_ok_and
    (x := injectingBelow.compileWithin 10 none [])
    (t := fun p : Plan => p.rootBranch injectsExcluded) (by decide +kernel)
  obtain ⟨set, sel, child, type, below, hset, hsel, hchild, hbelow, htest⟩ :=
    Plan.exists_rootBranch htest
  exact ⟨p, memory, set, sel, child, type, below, h, hset, hsel, hchild, hbelow, htest⟩

/-- What was put in below an excluded link is included all the same. -/
theorem included_below_excluded : injectingBelow.pipeline.Lawful ∧
    ∃ p memory set sel child type below x,
      injectingBelow.compileWithin 10 none [] = (.ok p, memory) ∧ p.rootSelectionSet = .ok set ∧
        sel ∈ set.selections ∧ sel.selectionSet = some child ∧
        p.selectionSet child type = .ok below ∧ x ∈ below.selections ∧
        x.isIncluded onlyB = true ∧ sel.isIncluded onlyB = false := by
  obtain ⟨p, memory, set, sel, child, type, below, h, hset, hsel, hchild, hbelow, htest⟩ :=
    exists_injectsExcluded
  simp only [injectsExcluded, Bool.and_eq_true, Bool.not_eq_true', List.any_eq_true] at htest
  obtain ⟨⟨⟨-, hexcluded⟩, -⟩, x, hx, -, hincluded⟩ := htest
  exact ⟨injectingBelow_lawful, p, memory, set, sel, child, type, below, x, h, hset, hsel, hchild,
    hbelow, hx, hincluded, hexcluded⟩

/-- What was collected below the same link is not, and hangs on its occurrences. -/
theorem included_of_below_linked : ∃ p memory set sel child type below,
    injectingBelow.compileWithin 10 none [] = (.ok p, memory) ∧ p.rootSelectionSet = .ok set ∧
      sel ∈ set.selections ∧ sel.selectionSet = some child ∧
      p.selectionSet child type = .ok below ∧ (∃ x ∈ below.selections, x.internal = false) ∧
      (∀ x ∈ below.selections, x.internal = false → x.isIncluded onlyB = false) ∧
      ∃ occurrences, p.Inherits schema conditionalFragments sel below occurrences := by
  obtain ⟨p, memory, set, sel, child, type, below, h, hset, hsel, hchild, hbelow, htest⟩ :=
    exists_injectsExcluded
  simp only [injectsExcluded, Bool.and_eq_true, Bool.not_eq_true', List.any_eq_true] at htest
  obtain ⟨⟨⟨hcollected, hexcluded⟩, hsome⟩, -⟩ := htest
  obtain ⟨hincluded, hinherits⟩ := CompileInput.included_of_below schema_built conditional_built
    injectingBelow_lawful h hset set.mem_parts_self hsel hchild hbelow
  refine ⟨p, memory, set, sel, child, type, below, h, hset, hsel, hchild, hbelow, hsome,
    fun x hx hx' => ?_, hinherits hcollected⟩
  cases hx'' : x.isIncluded onlyB with
  | false => rfl
  | true =>
      have hsel' := hincluded onlyB (Or.inl ⟨x, hx, hx', hx''⟩)
      rw [hexcluded] at hsel'
      cases hsel'

end Linked

end QueryPlan
