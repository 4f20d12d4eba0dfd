import QueryPlan.Proofs.Plan.Agreement
import QueryPlan.Proofs.Plan.Calls

/-!
# Internal selections

An optimizer may put in the internal selection of any field node. It is always included; but its
sub-selections are only found when all optimizers are done, by the node. Where the node is not the
first that was collected for some field of the same selection set, they are what stands below the
node, unconditionally, at whatever place the node itself was written. Where it is, they are those
of all occurrences collected along with it that can be reached, each under its own clause.
-/

set_option autoImplicit false

namespace QueryPlan

variable {σ : Type}

/-! ## Nodes in view -/

/-- Every field in view carries the id that it stands under. -/
structure SyntaxView.Labelled (v : SyntaxView) : Prop where
  document : v.document.Labelled
  synthetic : v.synthetic.Labelled

theorem SyntaxView.Labelled.field {v : SyntaxView} (h : v.Labelled) {id : FieldId}
    {node : FieldNode} (hn : v.field? id = some node) : node.id = id := by
  rw [SyntaxView.field?, Option.orElse_eq_orElse, Option.orElse_eq_or] at hn
  rcases Option.or_eq_some_iff.1 hn with hd | ⟨-, hsyn⟩
  · exact h.document hd
  · exact h.synthetic hsyn

theorem labelled_syntheticAfter (a : SyntaxArena) : a.syntheticAfter.Labelled := by
  intro id node hn
  simp [SyntaxArena.syntheticAfter, SyntaxArena.field?, SyntaxArena.atIndex?] at hn

/-- A field in view stays the same while the synthetic syntax grows. -/
theorem SyntaxView.field?_grow {document a b : SyntaxArena} (hab : a.Grows b) {id : FieldId}
    {node : FieldNode} (hn : SyntaxView.field? ⟨document, a⟩ id = some node) :
    SyntaxView.field? ⟨document, b⟩ id = some node := by
  rw [SyntaxView.field?, Option.orElse_eq_orElse, Option.orElse_eq_or] at hn ⊢
  rcases Option.or_eq_some_iff.1 hn with hd | ⟨hnone, hsyn⟩
  · exact Option.or_eq_some_iff.2 (.inl hd)
  · exact Option.or_eq_some_iff.2 (.inr ⟨hnone, hab.extends_.field hsyn⟩)

/-- The draft that is put in for a node which stands for a field of a type. -/
def internalDraft (t : ObjectType) (node : FieldNode) (field : Field) (id : FieldId) :
    SelectionDraft :=
  ⟨node.responseKey, field, t, node.arguments, node.selectionSet, .always, true, [id]⟩

theorem internalSelection_eq_ok_iff {context : PlanContext} {view : SyntaxView} {id : FieldId}
    {d : SelectionDraft} :
    internalSelection context view id = .ok d ↔ ∃ node field, view.field? id = some node ∧
      context.objectType.field? node.name = some field ∧
      d = internalDraft context.objectType node field id := by
  unfold internalSelection internalDraft
  cases hn : view.field? id with
  | none => simp
  | some node =>
      cases hf : context.objectType.field? node.name with
      | none => simp [hf]
      | some field => simp [hf, eq_comm]

/-! ## Where drafts stem from -/

/-- The node is the first that was collected for some field. -/
def Collected.Heads (c : Collected) (id : FieldId) : Prop :=
  ∃ f ∈ c.fields.values, f.nodes.head? = some id

/-- A draft is made up of what was collected for a field, or it is the internal selection of a
node. -/
inductive SelectionDraft.Stems (context : PlanContext) (c : Collected) (view : SyntaxView) :
    SelectionDraft → Prop
  | collected {e : String × CollectedField} (mem : e ∈ c.fields.entries) :
      Stems context c view (e.2.draft context.objectType e.1)
  | internal {id : FieldId} {d : SelectionDraft} (eq : internalSelection context view id = .ok d) :
      Stems context c view d

theorem SelectionDraft.Stems.grow {context : PlanContext} {c : Collected}
    {document a b : SyntaxArena} {d : SelectionDraft} (hab : a.Grows b)
    (h : d.Stems context c ⟨document, a⟩) : d.Stems context c ⟨document, b⟩ := by
  cases h with
  | collected mem => exact .collected mem
  | internal eq =>
      obtain ⟨node, field, hn, hf, heq⟩ := internalSelection_eq_ok_iff.1 eq
      exact .internal (internalSelection_eq_ok_iff.2
        ⟨node, field, SyntaxView.field?_grow hab hn, hf, heq⟩)

namespace CompileInput

variable {input : CompileInput σ} {fs : List Found} {view : SyntaxView} {context : PlanContext}

/-- Where a build is started, all that it finds is in view under the ids that it carries. -/
theorem Sound.found (hdocument : input.document.Built) {fuel : Nat} {task : BuildTask σ}
    {s s₁ : CompileState σ} {c : Collected} (h : input.Sound ⟨fuel, task, s⟩)
    (hcollect : Runs (input.collect (input.contextOf task) task.optimizers task.sources) s c s₁) :
    (s.view input.document).Labelled ∧ ∃ fs, c = Collected.empty.mergeAll fs ∧
      ∀ {node field clause}, Found.field node field clause ∈ fs →
        (s.view input.document).field? node.id = some node := by
  have hview : (s.view input.document).Labelled :=
    ⟨fun _ _ => hdocument.closed.arena.field_id, h.grows.labelled (labelled_syntheticAfter _)⟩
  obtain ⟨_, hwalk, -⟩ := runs_collect.1 hcollect
  obtain ⟨fs, hfs, rfl⟩ := CollectScope.collectAll_flattens (CollectScope.answers_any _) hwalk
  refine ⟨hview, fs, rfl, fun {node field clause} hmem => ?_⟩
  obtain ⟨⟨id, hn⟩, -⟩ := hfs.field_mem hmem
  obtain rfl := hview.field hn
  exact hn

/-- The first node of a draft has its response key. -/
theorem first_of_stems {d : SelectionDraft} (hview : view.Labelled)
    (hfs : ∀ {node field clause}, Found.field node field clause ∈ fs →
      view.field? node.id = some node)
    (h : d.Stems context (Collected.empty.mergeAll fs) view) :
    ∃ node, view.field? node.id = some node ∧ node.responseKey = d.responseKey ∧
      d.nodes.head? = some node.id := by
  cases h with
  | collected mem => exact (firstNode?_collected hfs).1 _ mem
  | internal eq =>
      obtain ⟨node, field, hn, -, rfl⟩ := internalSelection_eq_ok_iff.1 eq
      obtain rfl := hview.field hn
      exact ⟨node, hn, rfl, rfl⟩

/-- Drafts that stand under the response keys of their first nodes have different first nodes. -/
theorem nodup_firstNodes_of_keyed {m : SelectionMap} {node? : FieldId → Option FieldNode}
    (hkeyed : ∀ e ∈ m.entries, e.1 = e.2.responseKey)
    (hfirst : ∀ d ∈ m.values, ∃ node, node? node.id = some node ∧
      node.responseKey = d.responseKey ∧ d.nodes.head? = some node.id) :
    (m.values.map fun d => d.nodes.head?).Nodup := by
  have hentries : ∀ e ∈ m.entries, ∃ node, node? node.id = some node ∧ node.responseKey = e.1 ∧
      e.2.nodes.head? = some node.id := by
    intro e he
    obtain ⟨node, hn, hkey, hhead⟩ := hfirst e.2 (List.mem_map_of_mem he)
    exact ⟨node, hn, hkey.trans (hkeyed e he).symm, hhead⟩
  rw [OrderedMap.values, List.map_map]
  exact nodup_firstNodes hentries

/-- The occurrences that a draft of one node finds. -/
theorem occurrencesOf_singleton {node? : FieldId → Option FieldNode}
    (hfs : ∀ {node field clause}, Found.field node field clause ∈ fs →
      node? node.id = some node) {d : SelectionDraft} {id : FieldId} (hd : d.nodes = [id]) :
    (¬ (Collected.empty.mergeAll fs).Heads id →
      occurrencesOf (liveOccurrences (Collected.empty.mergeAll fs)) d = [⟨id, .always⟩]) ∧
    ∀ f ∈ (Collected.empty.mergeAll fs).fields.values, f.nodes.head? = some id →
      occurrencesOf (liveOccurrences (Collected.empty.mergeAll fs)) d = f.live := by
  have hhead : d.nodes.head? = some id := by rw [hd]; rfl
  rw [occurrencesOf, hhead, Option.bind_some]
  constructor
  · intro hnot
    have hnone : (liveOccurrences (Collected.empty.mergeAll fs)).find? (fun l => l.1 = id) =
        none := by
      refine List.find?_eq_none.2 fun l hl hid => hnot ?_
      obtain ⟨f, hf, hl⟩ := List.mem_filterMap.1 hl
      obtain ⟨n, hn, rfl⟩ := Option.map_eq_some_iff.1 hl
      exact ⟨f, hf, hn.trans (congrArg some (of_decide_eq_true hid))⟩
    rw [hnone, hd]
    rfl
  · intro f hf hid
    obtain ⟨e, he, rfl⟩ := List.mem_map.1 hf
    have hfind := find?_live he hid (firstNode?_collected hfs).2
    rw [liveOccurrences, OrderedMap.values, hfind]

/-- The one source of a node alone. -/
theorem sourcesOf_singleton {id : FieldId} {node : FieldNode} {set : SelectionSetId}
    (hn : view.field? id = some node) (hset : node.selectionSet = some set) :
    sourcesOf view [⟨id, .always⟩] = [⟨set, .always⟩] := by
  simp [sourcesOf, hn, hset]

/-- The sources of a collected field stay the same while the synthetic syntax grows. -/
theorem sourcesOf_live_grow {document a b : SyntaxArena} (hab : a.Grows b)
    (hfs : ∀ {node field clause}, Found.field node field clause ∈ fs →
      SyntaxView.field? ⟨document, a⟩ node.id = some node) {f : CollectedField}
    (hf : f ∈ (Collected.empty.mergeAll fs).fields.values) :
    sourcesOf ⟨document, b⟩ f.live = sourcesOf ⟨document, a⟩ f.live := by
  obtain ⟨e, he, rfl⟩ := List.mem_map.1 hf
  obtain ⟨o, os, hocc, heq⟩ := Collected.mem_entries_collected_iff.1 he
  have hread : ∀ {b}, a.Grows b →
      sourcesOf ⟨document, b⟩ e.2.live = (o :: os).filterMap (·.source?) := by
    intro b hab
    rw [heq]
    refine sourcesOf_live fun o' ho' => ?_
    exact SyntaxView.field?_grow hab (hfs (mem_occurrencesAt.1 (hocc ▸ ho')).1)
  rw [hread hab, hread (.refl a)]

/-- What lawful optimizers leave stems from what was collected or from nodes. -/
theorem stems_optimize {task : BuildTask σ} (hproper : input.Proper task) {c : Collected}
    {m : SelectionMap} {s s' : CompileState σ}
    (h : Runs (input.optimize (input.contextOf task) task.optimizers (drafts c task.objectType))
      s m s') : ∀ d ∈ m.values, d.Stems (input.contextOf task) c (s'.view input.document) := by
  refine (leaves_optimize
    (P := fun a d => d.Stems (input.contextOf task) c ⟨input.document.syntaxArena, a⟩)
    hproper.optimizers (fun hab hd => hd.grow hab) (fun _ hid => .internal hid) (fun d hd => ?_)
    (drafts_keyed _ _) h).2.1
  obtain ⟨x, hx, rfl⟩ := List.mem_map.1 hd
  obtain ⟨e, he, rfl⟩ := List.mem_map.1 hx
  exact .collected he

/-! ## What becomes of internal selections -/

variable {bound : Nat} {name : Option String} {memory : σ} {jobs : List ChildJob}

/-- What stands below a selection is, for every type that its field can have, what building its
sub-selections from some sources has left in the course of the compilation. -/
def BuiltFrom (input : CompileInput σ) (bound : Nat) (name : Option String) (memory : σ)
    (jobs : List ChildJob) (fuel : Nat) (task : BuildTask σ) (s' : CompileState σ)
    (sel : Selection) (sources : List ClausedSet) : Prop :=
  ∃ key v, sel.selectionSet = some key ∧ s'.variants.get? key = some v ∧
    ∀ t ∈ input.schema.possibleTypes sel.field.type.innermost, ∃ job call set u,
      v.sets.get? t.name = some set ∧ input.Performs bound name memory (jobs ++ [job]) call ∧
      call.task = ⟨t, sources, task.path ++ [⟨sel.field, sel.responseKey⟩],
        task.optimizers ++ input.pipeline.below sel.declaringType sel.field.name⟩ ∧
      Runs (perform (input.build fuel) call.task) call.state set u

/-- A selection that was put in for a node is always included. What stands below it is built from
what stands below the node, unconditionally, unless the node was the first collected for some
field; then it is built from the reachable occurrences of that field. -/
structure PutIn (input : CompileInput σ) (bound : Nat) (name : Option String) (memory : σ)
    (jobs : List ChildJob) (fuel : Nat) (task : BuildTask σ) (c : Collected)
    (s' : CompileState σ) (sel : Selection) (id : FieldId) (node : FieldNode) : Prop where
  nodes : sel.nodes = [id]
  found : (s'.view input.document).field? id = some node
  responseKey : sel.responseKey = node.responseKey
  declaringType : sel.declaringType = task.objectType
  field : task.objectType.field? node.name = some sel.field
  included : ∀ vars, sel.isIncluded vars = true
  leaf : node.selectionSet = none → sel.selectionSet = none
  alone : ∀ {set}, node.selectionSet = some set → ¬ c.Heads id →
    input.BuiltFrom bound name memory jobs fuel task s' sel [⟨set, .always⟩]
  merged : ∀ {set}, node.selectionSet = some set → ∀ f ∈ c.fields.values,
    f.nodes.head? = some id → input.BuiltFrom bound name memory jobs fuel task s' sel
      (sourcesOf (s'.view input.document) f.live)

section Level

variable {fuel : Nat} {task : BuildTask σ} {s s₁ s₂ s₃ s₄ s' : CompileState σ} {c : Collected}
  {deferred : List (DeferredFragment SelectionSet)} {m : SelectionMap}
  {selections : List Selection} {jobs' : List ChildJob} {sel : Selection}

/-- What stands below a selection is built from the occurrences that its draft finds. -/
theorem builtFrom_of_standsFor (hschema : input.schema.Built) (hdocument : input.document.Built)
    (hlawful : input.pipeline.Lawful)
    (hcall : input.Performs bound name memory jobs ⟨fuel + 1, task, s⟩)
    (hprepares : input.Prepares (input.build fuel) task s s₁ s₂ s₃ s₄ c deferred m selections jobs')
    (hjobs : Runs (jobs'.forM (input.compileChildren (input.build fuel) task.path task.optimizers))
      s₄ ⟨⟩ s') {d : SelectionDraft} (hstands : StandsFor (liveOccurrences c) jobs' d sel)
    {set : SelectionSetId} (hset : d.selectionSet = some set) :
    ∃ s₅, s₄.Kept s₅ ∧ input.BuiltFrom bound name memory jobs fuel task s' sel
      (sourcesOf (s₅.view input.document) (occurrencesOf (liveOccurrences c) d)) := by
  obtain ⟨key, hkey, hjob⟩ := hstands.inner hset
  obtain ⟨_, hdraft⟩ := hstands.draft
  obtain ⟨s₅, v, hkept₅, -, hv, -, hbelow⟩ := exists_descends hschema.wellNamed hlawful
    (hcall.sound hschema hdocument hlawful) hprepares hjobs hjob
  refine ⟨s₅, hkept₅, key, v, hkey, hv, fun t ht => ?_⟩
  rw [hdraft] at ht ⊢
  obtain ⟨call, built, u, hget, hdescends, -, htask, hruns, -⟩ := hbelow t ht
  exact ⟨_, call, built, u, hget, .child hcall hdescends, htask, hruns⟩

/-- Every selection stands for a draft that stems from what was collected or from a node. -/
theorem exists_stems (hschema : input.schema.Built) (hdocument : input.document.Built)
    (hlawful : input.pipeline.Lawful) (hsound : input.Sound ⟨fuel + 1, task, s⟩)
    (hprepares : input.Prepares (input.build fuel) task s s₁ s₂ s₃ s₄ c deferred m selections jobs')
    (hsel : sel ∈ selections) : ∃ d, d.Stems (input.contextOf task) c (s₃.view input.document) ∧
      StandsFor (liveOccurrences c) jobs' d sel := by
  obtain ⟨pending, loose, howned⟩ := hsound.owned
  have hb : input.Builds (input.build fuel) _ := builds hschema.wellNamed hlawful fuel
  have hprepared := hprepares.prepared hschema.wellNamed hb hsound.proper howned
  obtain ⟨hview, fs, rfl, hfound⟩ := hsound.found hdocument hprepares.collect
  have hgrows₃ : s.synthetic.Grows s₃.synthetic :=
    (hprepared.revised₁.grows.trans hprepared.kept₂.synthetic).trans hprepared.revised₃.grows
  have hview₃ : (s₃.view input.document).Labelled :=
    ⟨hview.document, hgrows₃.labelled hview.synthetic⟩
  -- the drafts that are finished have different first nodes, so each finds its own occurrences
  have hstems := stems_optimize hsound.proper hprepares.optimize
  have hfirst := fun d hd => first_of_stems hview₃
    (fun hmem => SyntaxView.field?_grow hgrows₃ (hfound hmem)) (hstems d hd)
  obtain ⟨hforall, -⟩ := finished_standsFor (nodup_firstNodes_of_keyed hprepared.keyed hfirst)
    (finished_of_runs hprepares.finish)
  obtain ⟨d, hd, hstands⟩ := exists_of_mem_right hforall hsel
  exact ⟨d, hstems d hd, hstands⟩

/-- **What is put in for a node does not depend on where the node was written**, unless it is the
first node that was collected for some field of the selection set. -/
theorem putIn_of_internal (hschema : input.schema.Built) (hdocument : input.document.Built)
    (hlawful : input.pipeline.Lawful) {set : SelectionSet}
    (hcall : input.Performs bound name memory jobs ⟨fuel + 1, task, s⟩)
    (hcollect : Runs (input.collect (input.contextOf task) task.optimizers task.sources) s c s₁)
    (hrun : Runs (perform (input.build (fuel + 1)) task) s set s') (hsel : sel ∈ set.selections)
    (hinternal : sel.internal = true) :
    ∃ id node, input.PutIn bound name memory jobs fuel task c s' sel id node := by
  have hnamed := hschema.wellNamed
  have hsound := hcall.sound hschema hdocument hlawful
  have hproper : input.Proper task := hsound.proper
  obtain ⟨pending, loose, howned⟩ := hsound.owned
  have hb : input.Builds (input.build fuel) _ := builds hnamed hlawful fuel
  obtain ⟨_, s₂, s₃, s₄, _, deferred, m, selections, jobs', hprepares, hjobs, rfl⟩ :=
    runs_build_succ.1 hrun
  obtain ⟨rfl, rfl⟩ := hcollect.unique hprepares.collect
  have hprepared := hprepares.prepared hnamed hb hproper howned
  obtain ⟨-, hkept', -⟩ := hb.children hnamed hlawful hproper hprepared.owned₄ hjobs
  obtain ⟨-, fs, rfl, hfound⟩ := hsound.found hdocument hcollect
  have hgrows₃ : s.synthetic.Grows s₃.synthetic :=
    (hprepared.revised₁.grows.trans hprepared.kept₂.synthetic).trans hprepared.revised₃.grows
  obtain ⟨d, hstems, hstands⟩ := exists_stems hschema hdocument hlawful hsound hprepares hsel
  obtain ⟨_, hdraft⟩ := hstands.draft
  cases hstems with
  | collected mem =>
      rw [hdraft] at hinternal
      cases hinternal
  | @internal id _ eq =>
      obtain ⟨node, field, hn, hf, rfl⟩ := internalSelection_eq_ok_iff.1 eq
      obtain ⟨halone, hmerged⟩ := occurrencesOf_singleton hfound
        (d := internalDraft (input.contextOf task).objectType node field id) rfl
      have hbuilt : ∀ {inner}, node.selectionSet = some inner → ∃ s₅, s₄.Kept s₅ ∧
          input.BuiltFrom bound name memory jobs fuel task s' sel
            (sourcesOf (s₅.view input.document)
              (occurrencesOf (liveOccurrences (Collected.empty.mergeAll fs))
                (internalDraft (input.contextOf task).objectType node field id))) := fun hset =>
        builtFrom_of_standsFor hschema hdocument hlawful hcall hprepares hjobs hstands hset
      have hgrow : ∀ {s₅ : CompileState σ}, s₄.Kept s₅ → s₃.synthetic.Grows s₅.synthetic :=
        fun h => hprepared.kept₄.synthetic.trans h.synthetic
      refine ⟨id, node, {
        nodes := by rw [hdraft]; rfl
        found := SyntaxView.field?_grow (hgrow hkept') hn
        responseKey := by rw [hdraft]; rfl
        declaringType := by rw [hdraft]; rfl
        field := by rw [hdraft]; exact hf
        included := fun vars => by rw [hdraft]; rfl
        leaf := hstands.leaf
        alone := fun {inner} hset hnot => ?_
        merged := fun {inner} hset f hmem hid => ?_ }⟩
      -- the node itself is in view when the turn of its sub-selections comes
      · obtain ⟨s₅, hkept₅, hfrom⟩ := hbuilt hset
        have hn₅ : (s₅.view input.document).field? id = some node :=
          SyntaxView.field?_grow (hgrow hkept₅) hn
        rw [halone hnot, sourcesOf_singleton hn₅ hset] at hfrom
        exact hfrom
      · obtain ⟨s₅, hkept₅, hfrom⟩ := hbuilt hset
        have hsame : ∀ {s₆ : CompileState σ}, s₄.Kept s₆ →
            sourcesOf (s₆.view input.document) f.live = sourcesOf (s.view input.document) f.live :=
          fun hkept₆ => sourcesOf_live_grow (hgrows₃.trans (hgrow hkept₆)) hfound hmem
        rw [hmerged f hmem hid, hsame hkept₅, ← hsame hkept'] at hfrom
        exact hfrom

end Level

end CompileInput

namespace Linked

/-- Puts in the link of that number at the root. -/
def injecting (id : FieldId) : CompileInput Journal where
  schema := schema
  document := conditional
  fragments := conditionalFragments
  pipeline :=
    Pipeline.empty.withOptimizer (Rule.optimizer ⟨none, some [], .insert (.node id) none none⟩)

theorem injecting_lawful (id : FieldId) : (injecting id).pipeline.Lawful :=
  Pipeline.passive_empty.lawful.withOptimizer (Rule.lawful_optimizer _)

/-- Whether a selection was put in for a link that is not the first collected for any field. -/
def injectsOther (id : FieldId) (task : BuildTask Journal) (s : CompileState Journal)
    (sel : Selection) : Bool :=
  sel.internal && sel.selectionSet.isSome &&
    match ((injecting id).collect ((injecting id).contextOf task) task.optimizers
        task.sources).run.run s with
    | (.ok c, _) => c.fields.values.all fun f => f.nodes.head? ≠ sel.nodes.head?
    | (.error _, _) => false

theorem injectsOther_root : ((injecting ⟨5⟩).rootPasses 10 none [] fun task s set _ =>
    set.selections.any (injectsOther ⟨5⟩ task s)) = true := by decide +kernel

/-- The link in the fragment is conditional there, but what is put in for it is not. -/
theorem putIn_linked : ∃ task s set s' sel inner,
    (injecting ⟨5⟩).Performs 10 none [] [] ⟨10, task, s⟩ ∧
      Runs (CompileInput.perform ((injecting ⟨5⟩).build 10) task) s set s' ∧
      sel ∈ set.selections ∧ (∀ vars, sel.isIncluded vars = true) ∧
      (injecting ⟨5⟩).BuiltFrom 10 none [] [] 9 task s' sel [⟨inner, .always⟩] := by
  obtain ⟨task, s, set, s', hroot, hrun, htest⟩ := CompileInput.exists_root injectsOther_root
  obtain ⟨sel, hsel, htest⟩ := List.any_eq_true.1 htest
  obtain ⟨s₁, _, _, _, c, _, _, _, _, hprepares, -, -⟩ :=
    CompileInput.runs_build_succ.1 hrun
  have hcollect := hprepares.collect
  rw [injectsOther, show _ = (Except.ok c, s₁) from hcollect] at htest
  simp only [Bool.and_eq_true, List.all_eq_true, decide_eq_true_eq] at htest
  obtain ⟨⟨hinternal, hinner⟩, hother⟩ := htest
  obtain ⟨id, node, hput⟩ := CompileInput.putIn_of_internal schema_built conditional_built
    (injecting_lawful ⟨5⟩) hroot hcollect hrun hsel hinternal
  cases hset : node.selectionSet with
  | none =>
      rw [hput.leaf hset] at hinner
      cases hinner
  | some inner =>
      refine ⟨task, s, set, s', sel, inner, hroot, hrun, hsel, hput.included,
        hput.alone hset fun ⟨f, hf, hhead⟩ => hother f hf ?_⟩
      rw [hhead, hput.nodes]
      rfl

/-- The task of a node's own sub-selections for a type, unconditionally, below a selection. -/
def aloneTask (input : CompileInput Journal) (task : BuildTask Journal) (sel : Selection)
    (inner : SelectionSetId) (t : ObjectType) : BuildTask Journal :=
  ⟨t, [⟨inner, .always⟩], task.path ++ [⟨sel.field, sel.responseKey⟩],
    task.optimizers ++ input.pipeline.below sel.declaringType sel.field.name⟩

/-- Whether below a selection that was put in for a node something is conditional, though nothing
is when the sub-selections of the node are built on their own. -/
def injectsConditional (id : FieldId) (task : BuildTask Journal) (s' : CompileState Journal)
    (sel : Selection) : Bool :=
  sel.internal && decide (sel.nodes = [id]) &&
    (schema.possibleTypes sel.field.type.innermost).any fun t =>
      ((s'.view conditional).field? id |>.bind (·.selectionSet)).any fun inner =>
        ((CompileInput.below? s' sel t).any fun below =>
          below.selections.any (·.isConditional)) &&
        match (CompileInput.perform ((injecting id).build 9)
            (aloneTask (injecting id) task sel inner t)).run.run s' with
        | (.ok alone, _) => alone.selections.all fun x => !x.isConditional
        | (.error _, _) => false

theorem injectsConditional_root : ((injecting ⟨1⟩).rootPasses 10 none [] fun task _ set s' =>
    set.selections.any (injectsConditional ⟨1⟩ task s')) = true := by decide +kernel

/-- The link at the root was the first to be collected. Put in again, it has sub-selections that
are conditional, and that would not be if they were built on their own. -/
theorem injected_conditional : ∃ task s set s' sel t inner below alone u,
    (injecting ⟨1⟩).Performs 10 none [] [] ⟨10, task, s⟩ ∧
      Runs (CompileInput.perform ((injecting ⟨1⟩).build 10) task) s set s' ∧
      sel ∈ set.selections ∧ sel.internal = true ∧ sel.nodes = [⟨1⟩] ∧
      ((s'.view conditional).field? ⟨1⟩).bind (·.selectionSet) = some inner ∧
      CompileInput.below? s' sel t = some below ∧ (∃ x ∈ below.selections, x.isConditional) ∧
      Runs (CompileInput.perform ((injecting ⟨1⟩).build 9)
        (aloneTask (injecting ⟨1⟩) task sel inner t)) s' alone u ∧
      ∀ x ∈ alone.selections, x.isConditional = false := by
  obtain ⟨task, s, set, s', hroot, hrun, htest⟩ := CompileInput.exists_root injectsConditional_root
  obtain ⟨sel, hsel, htest⟩ := List.any_eq_true.1 htest
  obtain ⟨htest, hbelow⟩ := Bool.and_eq_true_iff.1 htest
  obtain ⟨hinternal, hnodes⟩ := Bool.and_eq_true_iff.1 htest
  obtain ⟨t, -, hbelow⟩ := List.any_eq_true.1 hbelow
  obtain ⟨inner, hinner, hbelow⟩ := (Option.any_eq_true _ _).1 hbelow
  obtain ⟨hbelow, halone⟩ := Bool.and_eq_true_iff.1 hbelow
  obtain ⟨below, hstored, hconditional⟩ := (Option.any_eq_true _ _).1 hbelow
  split at halone
  · rename_i alone u hbuilt
    refine ⟨task, s, set, s', sel, t, inner, below, alone, u, hroot, hrun, hsel, hinternal,
      of_decide_eq_true hnodes, hinner, hstored, List.any_eq_true.1 hconditional, hbuilt, ?_⟩
    simpa using halone
  · cases halone

end Linked

end QueryPlan
