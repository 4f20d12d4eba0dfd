import QueryPlan.Proofs.Plan.Readable
import QueryPlan.Proofs.Plan.Thinning
import QueryPlan.Proofs.Plan.Tree

/-!
# Compiling comes to an end

A compilation recurses along the syntax: into fragments, into what is below a field, and into what
was set aside. It does so for every type that a field can have, but types play no part in how deep
it goes: each selection set that it goes on to lies at a smaller depth than the one it comes from
(`Document.Depths`). Optimizers that only thin out what they are shown lead nowhere else. So the
recursion stays below a bound that depends on the document alone, and any bound above that one
makes no difference.
-/

set_option autoImplicit false

namespace QueryPlan

variable {σ : Type}

/-! ## How deep lies what was found -/

/-- What was found leads on to selection sets of smaller depths only. -/
def Found.Below (depth : SelectionSetId → Nat) (n : Nat) : Found → Prop
  | .field node _ _ => ∀ inner, node.selectionSet = some inner → depth inner < n
  | .deferral p => depth p.selectionSet < n

section Depth

variable {schema : Schema} {fragments : FragmentIndex} {d : Document} {v : SyntaxView}
  {t : ObjectType} {answers : Bool → Prop} {depth : SelectionSetId → Nat} {n : Nat}

/-- The selections of a set of the document lead to smaller depths than that of the set. -/
theorem Document.Depths.selectionsOf (hd : d.Closed) (hv : v.document = d.syntaxArena)
    (hdepths : d.Depths fragments depth) {set : SelectionSetId} (hset : d.Has set)
    (hn : depth set ≤ n) : ∀ sel ∈ v.selectionsOf set,
      d.syntaxArena.Resolves sel ∧ ∀ inner, d.Leads fragments sel inner → depth inner < n := by
  obtain ⟨node, hnode⟩ := hset
  rw [SyntaxView.selectionsOf_of_document (hv ▸ hnode)]
  exact fun sel hsel => ⟨hd.arena.resolves hnode hsel, fun inner hleads =>
    (hdepths hnode hsel hleads).trans_le hn⟩

theorem Setting.Flattens.below_depth (hd : d.Closed) (hfragments : fragments.Within d)
    (hv : v.document = d.syntaxArena) (hdepths : d.Depths fragments depth)
    {sels : List SelectionNode} {clause : Option Clause} {fs : List Found}
    (h : Flattens ⟨schema, fragments, v⟩ t answers sels clause fs)
    (hsels : ∀ sel ∈ sels,
      d.syntaxArena.Resolves sel ∧ ∀ inner, d.Leads fragments sel inner → depth inner < n) :
    ∀ f ∈ fs, f.Below depth n := by
  induction h with
  | nil => exact List.forall_mem_nil _
  | @field id node field rest clause fs hn _ _ ih =>
      rw [List.forall_mem_cons] at hsels
      have hm := SyntaxView.field?_of_resolves hsels.1.1 hv hn
      refine List.forall_mem_cons.2 ⟨fun inner hinner => ?_, ih hsels.2⟩
      exact hsels.1.2 inner (.field hm hinner)
  | passed _ _ ih =>
      rw [List.forall_mem_cons] at hsels
      exact ih hsels.2
  | @entered sel use rest clause fs fs' hopens _ _ _ ih ih' =>
      rw [List.forall_mem_cons] at hsels
      obtain ⟨-, hhas⟩ := hopens.transfer hd hfragments hv hv hsels.1.1
      have hlt : depth use.selectionSet < n :=
        hsels.1.2 _ (.fragment (hopens.enters hv hsels.1.1))
      exact List.forall_mem_append.2
        ⟨ih (hdepths.selectionsOf hd hv hhas hlt.le), ih' hsels.2⟩
  | deferred hopens _ _ _ _ ih =>
      rw [List.forall_mem_cons] at hsels
      refine List.forall_mem_cons.2 ⟨?_, ih hsels.2⟩
      exact hsels.1.2 _ (.fragment (hopens.enters hv hsels.1.1))

theorem Setting.FlattensAll.below_depth (hd : d.Closed) (hfragments : fragments.Within d)
    (hv : v.document = d.syntaxArena) (hdepths : d.Depths fragments depth)
    {sources : List ClausedSet} {fs : List Found}
    (h : FlattensAll ⟨schema, fragments, v⟩ t answers sources fs)
    (hsources : ∀ c ∈ sources, d.Has c.selectionSet ∧ depth c.selectionSet ≤ n) :
    ∀ f ∈ fs, f.Below depth n := by
  induction h with
  | nil => exact List.forall_mem_nil _
  | cons hflat _ ih =>
      rw [List.forall_mem_cons] at hsources
      obtain ⟨hhas, hle⟩ := hsources.1
      exact List.forall_mem_append.2
        ⟨hflat.below_depth hd hfragments hv hdepths (hdepths.selectionsOf hd hv hhas hle),
          ih hsources.2⟩

end Depth

/-! ## Walks come to an end -/

namespace CollectScope

variable {s : CollectScope σ} {enter enter' : Enter σ} {clause : Option Clause}
  {acc : Collected}

theorem coincide_meets (s : CollectScope σ) (c : String) (location : SyntaxLocation) :
    Coincide .nestingTooDeep (liftM (s.meets c location) : CollectM σ Bool)
      (liftM (s.meets c location)) := by
  unfold meets
  split
  · exact coincide_throw (by simp)
  · exact coincide_pure _

theorem coincide_enterFragment {ds : List DirectiveNode} {source : DeferredSource}
    {set : SelectionSetId} {typeCondition : Option String} {ask : Optimizer σ → StateM σ Bool}
    (henter : Coincide .nestingTooDeep (enter set (reachedUnder clause ds) acc)
      (enter' set (reachedUnder clause ds) acc)) :
    Coincide .nestingTooDeep (s.enterFragment enter clause ds source set typeCondition ask acc)
      (s.enterFragment enter' clause ds source set typeCondition ask acc) := by
  dsimp only [enterFragment]
  split
  · refine coincide_bind succeeds_lift.coincide fun _ b _ _ => ?_
    cases b with
    | true => exact coincide_pure _
    | false => exact henter
  · exact henter

/-- One selection of a walk comes to an end if the fragment that it opens does. -/
theorem coincide_collectSelection {sel : SelectionNode}
    (henter : ∀ use, s.setting.Opens s.context.objectType sel use → ∀ clause acc,
      Coincide .nestingTooDeep (enter use.selectionSet clause acc)
        (enter' use.selectionSet clause acc)) :
    Coincide .nestingTooDeep (s.collectSelection enter clause acc sel)
      (s.collectSelection enter' clause acc sel) := by
  cases sel with
  | field id =>
      dsimp only [collectSelection]
      split
      · exact coincide_pure _
      · split
        · exact coincide_throw (by simp)
        · exact coincide_pure _
  | inlineFragment id =>
      dsimp only [collectSelection]
      split
      · exact coincide_pure _
      · rename_i node hn
        have hn : s.setting.view.inlineFragment? id = some node := hn
        split
        · rename_i hc
          have hopens := Setting.Opens.inlineFragment (t := s.context.objectType) hn
            fun c hc' => absurd (hc.symm.trans hc') (by simp)
          refine coincide_bind (coincide_pure _) fun _ applies _ happlies => ?_
          obtain ⟨rfl, -⟩ := runs_pure.1 happlies
          exact coincide_enterFragment (henter _ hopens _ _)
        · rename_i c hc
          refine coincide_bind (coincide_meets s c _) fun _ applies _ happlies => ?_
          cases applies with
          | false => exact coincide_pure _
          | true =>
              obtain ⟨-, hmeets, -⟩ := runs_meets happlies
              have hopens := Setting.Opens.inlineFragment (t := s.context.objectType) hn
                fun c' hc' => Option.some.inj (hc.symm.trans hc') ▸ hmeets
              exact coincide_enterFragment (henter _ hopens _ _)
  | spread id =>
      dsimp only [collectSelection]
      split
      · exact coincide_pure _
      · rename_i node hn
        have hn : s.setting.view.spread? id = some node := hn
        split
        · exact coincide_throw (by simp)
        · rename_i fragment hf
          refine coincide_bind (coincide_meets s _ _) fun _ applies _ happlies => ?_
          cases applies with
          | false => exact coincide_pure _
          | true =>
              obtain ⟨-, hmeets, -⟩ := runs_meets happlies
              exact coincide_enterFragment (henter _ (.spread hn hf hmeets) _ _)

/-- **A walk comes to an end** in a set whose depth is below the fuel, and more fuel changes
nothing. -/
theorem coincide_collect {d : Document} {depth : SelectionSetId → Nat} (hd : d.Closed)
    (hview : s.view.document = d.syntaxArena) (hdepths : d.Depths s.fragments depth)
    (hfragments : s.fragments.Within d) {fuel fuel' : Nat} {set : SelectionSetId}
    (hset : d.Has set) (hfuel : depth set < fuel) (hfuel' : depth set < fuel') :
    Coincide .nestingTooDeep (s.collect fuel set clause acc) (s.collect fuel' set clause acc) := by
  induction fuel generalizing fuel' set clause acc with
  | zero => exact absurd hfuel (Nat.not_lt_zero _)
  | succ fuel ih =>
      cases fuel' with
      | zero => exact absurd hfuel' (Nat.not_lt_zero _)
      | succ fuel' =>
          rw [collect_succ, collect_succ]
          refine coincide_foldlM (fun sel hsel acc => ?_) acc
          obtain ⟨hresolves, hlt⟩ := hdepths.selectionsOf hd hview hset le_rfl sel hsel
          -- a fragment that is opened lies at a smaller depth
          refine coincide_collectSelection fun use hopens clause acc => ?_
          obtain ⟨-, hhas⟩ := hopens.transfer hd hfragments hview hview hresolves
          have hdepth : depth use.selectionSet < depth set :=
            hlt _ (.fragment (hopens.enters hview hresolves))
          exact ih hhas (by omega) (by omega)

end CollectScope

/-! ## Builds come to an end -/

namespace CompileInput

variable {input : CompileInput σ} {depth : SelectionSetId → Nat} {n : Nat}

/-- The sources of the task are selection sets of the document, at depths below `n`. -/
def Shallow (input : CompileInput σ) (depth : SelectionSetId → Nat) (n : Nat)
    (task : BuildTask σ) : Prop :=
  ∀ c ∈ task.sources, input.document.Has c.selectionSet ∧ depth c.selectionSet < n

/-- The node is one of the document, and what is below it lies at a depth below `n`. -/
def LeadsBelow (input : CompileInput σ) (depth : SelectionSetId → Nat) (n : Nat) (id : FieldId) :
    Prop :=
  ∃ node, input.document.syntaxArena.field? id = some node ∧
    ∀ inner, node.selectionSet = some inner → depth inner < n

theorem coincide_collect (hdocument : input.document.Closed)
    (hfragments : input.fragments.Within input.document)
    (hdepths : input.document.Depths input.fragments depth)
    (hle : ∀ set, depth set ≤ input.document.syntaxArena.selectionSets.size)
    {task : BuildTask σ} (hsources : ∀ c ∈ task.sources, input.document.Has c.selectionSet) :
    Coincide .nestingTooDeep
      (input.collect (input.contextOf task) task.optimizers task.sources)
      (input.collect (input.contextOf task) task.optimizers task.sources) := by
  have hall (s : CompileState σ) : Coincide .nestingTooDeep
      ((input.scope (input.contextOf task) task.optimizers s).collectAll task.sources)
      ((input.scope (input.contextOf task) task.optimizers s).collectAll task.sources) := by
    refine coincide_foldlM (fun c hc acc => ?_) Collected.empty
    have hfuel : depth c.selectionSet <
        (input.scope (input.contextOf task) task.optimizers s).nestingBound := by
      have hdepth := hle c.selectionSet
      show _ < input.document.syntaxArena.selectionSets.size + s.synthetic.selectionSets.size + 1
      omega
    exact CollectScope.coincide_collect hdocument rfl hdepths hfragments (hsources c hc) hfuel
      hfuel
  unfold CompileInput.collect
  refine coincide_bind (Succeeds.coincide fun s => ⟨s, s, runs_get.2 ⟨rfl, rfl⟩⟩)
    fun _ s _ _ => ?_
  obtain ⟨-, hne⟩ := hall s s.memory
  unfold scope at hne
  dsimp only
  rcases hrun : ((CollectScope.mk (input.contextOf task) input.fragments (s.view input.document)
    task.optimizers).collectAll task.sources).run.run s.memory with ⟨result, memory⟩
  rw [hrun] at hne
  refine coincide_bind (Succeeds.coincide fun _ => ⟨⟨⟩, _, runs_set.2 rfl⟩) fun _ _ _ _ => ?_
  cases result with
  | ok c => exact coincide_pure c
  | error e => exact coincide_throw fun heq => hne (by rw [heq])

/-- The occurrences of a job are live ones, or all the nodes of a draft with sub-selections. -/
theorem Finished.job_occurrences {live : LiveOccurrences} {ds : List SelectionDraft}
    {selections : List Selection} {jobs : List ChildJob} {P : Occurrence → Prop}
    (h : Finished live ds selections jobs) (hlive : ∀ l ∈ live, ∀ o ∈ l.2, P o)
    (hds : ∀ d ∈ ds, ∀ id ∈ d.nodes, P ⟨id, .always⟩) :
    ∀ job ∈ jobs, (∃ d ∈ ds, d.selectionSet ≠ none) ∧ ∀ o ∈ job.occurrences, P o := by
  induction h with
  | nil => exact List.forall_mem_nil _
  | leaf _ _ ih =>
      rw [List.forall_mem_cons] at hds
      intro job hjob
      obtain ⟨⟨d, hd, hset⟩, hocc⟩ := ih hlive hds.2 job hjob
      exact ⟨⟨d, List.mem_cons_of_mem _ hd, hset⟩, hocc⟩
  | @inner live d ds rest jobs id set key hset _ ih =>
      rw [List.forall_mem_cons] at hds
      have hwithout : ∀ l ∈ withoutOccurrencesOf live d, ∀ o ∈ l.2, P o := by
        intro l hl
        unfold withoutOccurrencesOf at hl
        split at hl
        · exact hlive l hl
        · exact hlive l (List.mem_of_mem_filter hl)
      refine List.forall_mem_cons.2 ⟨⟨⟨d, List.mem_cons_self, by simp [hset]⟩, fun o ho => ?_⟩,
        fun job hjob => ?_⟩
      · change o ∈ occurrencesOf live d at ho
        unfold occurrencesOf at ho
        split at ho
        · rename_i l hl
          obtain ⟨n, -, hfind⟩ := Option.bind_eq_some_iff.1 hl
          exact hlive l (List.mem_of_find?_eq_some hfind) o ho
        · obtain ⟨id, hid, rfl⟩ := List.mem_map.1 ho
          exact hds.1 id hid
      · obtain ⟨⟨d', hd', hset'⟩, hocc⟩ := ih hwithout hds.2 job hjob
        exact ⟨⟨d', List.mem_cons_of_mem _ hd', hset'⟩, hocc⟩

/-- The occurrences of a job are nodes that were collected, and it is the job of a draft with
sub-selections. -/
theorem Finished.job_nodes {live : LiveOccurrences} {ds : List SelectionDraft}
    {selections : List Selection} {jobs : List ChildJob} {P : FieldId → Prop}
    (h : Finished live ds selections jobs) (hlive : ∀ l ∈ live, ∀ o ∈ l.2, P o.node)
    (hds : ∀ d ∈ ds, ∀ id ∈ d.nodes, P id) :
    ∀ job ∈ jobs, (∃ d ∈ ds, d.selectionSet ≠ none) ∧ ∀ o ∈ job.occurrences, P o.node :=
  h.job_occurrences (P := fun o => P o.node) hlive hds

section Collected

variable {fs : List Found}

/-- A live occurrence was found, under its clause. -/
theorem exists_found_of_live {l : FieldId × List Occurrence} {o : Occurrence}
    (hl : l ∈ liveOccurrences (Collected.empty.mergeAll fs)) (ho : o ∈ l.2) :
    ∃ node field clause, Found.field node field (some clause) ∈ fs ∧ o = ⟨node.id, clause⟩ := by
  obtain ⟨f, hf, hlive⟩ := List.mem_filterMap.1 hl
  obtain ⟨n, -, rfl⟩ := Option.map_eq_some_iff.1 hlive
  obtain ⟨key, hkey⟩ := OrderedMap.mem_values_iff.1 hf
  obtain ⟨o₁, os, hocc, rfl⟩ := Collected.get?_collected_iff.1 hkey
  obtain ⟨o', ho', heq⟩ := List.mem_filterMap.1 ho
  obtain ⟨clause, hclause, rfl⟩ := Option.map_eq_some_iff.1 heq
  have hmem := (mem_occurrencesAt.1 (hocc ▸ ho')).1
  rw [hclause] at hmem
  exact ⟨o'.node, o'.field, clause, hmem, rfl⟩

/-- The entries of what was found name only nodes that were found. -/
theorem collected_nodes {P : FieldId → Prop}
    (hfs : ∀ {node field clause}, Found.field node field clause ∈ fs → P node.id) :
    (∀ l ∈ liveOccurrences (Collected.empty.mergeAll fs), ∀ o ∈ l.2, P o.node) ∧
      ∀ e ∈ (Collected.empty.mergeAll fs).fields.entries, (∀ id ∈ e.2.nodes, P id) ∧
        ∃ node field clause, Found.field node field clause ∈ fs ∧
          e.2.selectionSet = node.selectionSet := by
  have hfound : ∀ {key o os o'}, occurrencesAt key fs = o :: os → o' ∈ o :: os →
      Found.field o'.node o'.field o'.clause ∈ fs := fun hocc ho' =>
    (mem_occurrencesAt.1 (hocc ▸ ho')).1
  constructor
  · intro l hl o ho
    obtain ⟨node, field, clause, hmem, rfl⟩ := exists_found_of_live hl ho
    exact hfs hmem
  · intro e he
    obtain ⟨o, os, hocc, hentry⟩ := Collected.mem_entries_collected_iff.1 he
    rw [hentry]
    refine ⟨fun id hid => ?_, o.node, o.field, o.clause, hfound hocc List.mem_cons_self, rfl⟩
    obtain ⟨o', ho', rfl⟩ := List.mem_map.1 hid
    exact hfs (hfound hocc ho')

/-- Where drafts were only thinned out, each job is that of a draft that was collected, and leads
below the depth of what was found. -/
theorem leadsBelow_of_finished {t : ObjectType} {m : SelectionMap} {selections : List Selection}
    {jobs : List ChildJob}
    (hsub : m.entries ⊆ (drafts (Collected.empty.mergeAll fs) t).entries)
    (hfs : ∀ f ∈ fs, f.Within input.document ∧ f.Below depth n)
    (h : Finished (liveOccurrences (Collected.empty.mergeAll fs)) m.values selections jobs) :
    ∀ job ∈ jobs, 0 < n ∧ ∀ o ∈ job.occurrences, input.LeadsBelow depth n o.node := by
  intro job hjob
  obtain ⟨hlive, hentries⟩ := collected_nodes (P := input.LeadsBelow depth n)
    fun {node _ _} hmem => ⟨node, (hfs _ hmem).1, (hfs _ hmem).2⟩
  have hdrafts : ∀ d ∈ m.values, ∃ e ∈ (Collected.empty.mergeAll fs).fields.entries,
      d = e.2.draft t e.1 := by
    intro d hd
    obtain ⟨e, he, rfl⟩ := List.mem_map.1 hd
    obtain ⟨e', he', heq⟩ := List.mem_map.1 (hsub he)
    exact ⟨e', he', (congrArg Prod.snd heq).symm⟩
  obtain ⟨⟨d, hd, hset⟩, hocc⟩ := h.job_nodes hlive
    (fun d hd id hid => by
      obtain ⟨e, he, rfl⟩ := hdrafts d hd
      exact (hentries e he).1 id hid) job hjob
  obtain ⟨e, he, rfl⟩ := hdrafts d hd
  obtain ⟨-, node, field, clause, hmem, hnode⟩ := hentries e he
  obtain ⟨inner, hinner⟩ := Option.ne_none_iff_exists'.1 hset
  have hlt : depth inner < n := (hfs _ hmem).2 inner (hnode ▸ hinner)
  exact ⟨Nat.zero_lt_of_lt hlt, hocc⟩

end Collected

/-- The sub-selections of a job come to an end if those of each type do. -/
theorem coincide_compileChildren {build build' : Build σ} {task : BuildTask σ} {job : ChildJob}
    (hdocument : input.document.Closed)
    (hjob : ∀ o ∈ job.occurrences, input.LeadsBelow depth n o.node)
    (hbuild : ∀ sources t, input.Shallow depth n (input.childTask task sources job t) →
      Coincide .nestingTooDeep (perform build (input.childTask task sources job t))
        (perform build' (input.childTask task sources job t))) :
    Coincide .nestingTooDeep (input.compileChildren build task.path task.optimizers job)
      (input.compileChildren build' task.path task.optimizers job) := by
  unfold compileChildren
  refine coincide_bind (Succeeds.coincide fun s => ⟨s, s, runs_get.2 ⟨rfl, rfl⟩⟩)
    fun _ s _ _ => ?_
  refine coincide_bind (Succeeds.coincide fun s => ⟨⟨⟩, _, runs_modify.2 rfl⟩) fun _ _ _ _ => ?_
  have hshallow : ∀ t, input.Shallow depth n (input.childTask task
      (sourcesOf (s.view input.document) job.occurrences) job t) := by
    intro t c hc
    obtain ⟨o, ho, hsource⟩ := List.mem_filterMap.1 hc
    obtain ⟨node, hn, hlt⟩ := hjob o ho
    rw [SyntaxView.field?_of_document (v := s.view input.document) hn, Option.bind_some]
      at hsource
    obtain ⟨inner, hinner, rfl⟩ := Option.map_eq_some_iff.1 hsource
    exact ⟨hdocument.has_of_field hn hinner, hlt inner hinner⟩
  refine coincide_forM fun t _ => ?_
  unfold compileVariant
  refine coincide_bind (Succeeds.coincide fun s => ⟨⟨⟩, _, runs_modify.2 rfl⟩) fun _ _ _ _ => ?_
  refine coincide_bind (hbuild _ t (hshallow t)) fun _ _ _ _ => ?_
  exact Succeeds.coincide fun s => ⟨⟨⟩, _, runs_modify.2 rfl⟩

/-- **A build comes to an end** whose sources lie at depths below the fuel, and more fuel changes
nothing. -/
theorem coincide_build (hdocument : input.document.Closed)
    (hfragments : input.fragments.Within input.document)
    (hdepths : input.document.Depths input.fragments depth)
    (hle : ∀ set, depth set ≤ input.document.syntaxArena.selectionSets.size)
    (hthins : input.pipeline.Thins) {fuel fuel' : Nat} {task : BuildTask σ} (hpos : 0 < n)
    (hfuel : n ≤ fuel) (hfuel' : n ≤ fuel') (hshallow : input.Shallow depth n task)
    (htask : ∀ o ∈ task.optimizers, o.Thins) :
    Coincide .nestingTooDeep (perform (input.build fuel) task)
      (perform (input.build fuel') task) := by
  induction n generalizing fuel fuel' task with
  | zero => exact absurd hpos (lt_irrefl 0)
  | succ n ih =>
      obtain ⟨f, rfl⟩ := Nat.exists_eq_add_of_le' hfuel
      obtain ⟨f', rfl⟩ := Nat.exists_eq_add_of_le' hfuel'
      rw [← Nat.add_assoc, ← Nat.add_assoc]
      unfold perform CompileInput.build
      refine coincide_bind (coincide_collect hdocument hfragments hdepths hle
        fun c hc => (hshallow c hc).1) fun s c _ hcollect => ?_
      obtain ⟨memory, hwalk, -⟩ := runs_collect.1 hcollect
      obtain ⟨fs, hfs, rfl⟩ := CollectScope.collectAll_flattens (CollectScope.answers_any _) hwalk
      -- all that was found leads to smaller depths than the sources
      obtain ⟨-, hwithin⟩ := Setting.FlattensAll.transfer (w := input.document.view) hdocument
        hfragments rfl rfl hfs fun c hc => (hshallow c hc).1
      have hbelow : ∀ f ∈ fs, f.Below depth n := hfs.below_depth hdocument hfragments rfl hdepths
        fun c hc => ⟨(hshallow c hc).1, Nat.le_of_lt_succ (hshallow c hc).2⟩
      refine coincide_bind (coincide_mapM fun d hd => ?_) fun _ deferred _ _ => ?_
      · have hmem : .deferral d ∈ fs := Collected.mem_deferrals_collected.1 hd
        have hlt : depth d.selectionSet < n := hbelow _ hmem
        have hsub : input.Shallow depth n (task.deferral d) := by
          intro c hc
          rw [List.mem_singleton.1 hc]
          exact ⟨hwithin _ hmem, hlt⟩
        exact coincide_bind (ih (Nat.zero_lt_of_lt hlt) (by omega) (by omega) hsub htask)
          fun _ _ _ _ => coincide_pure _
      have hrevised : ∀ s, ∃ m' s', Runs (input.optimize (input.contextOf task) task.optimizers
          (drafts (Collected.empty.mergeAll fs) task.objectType)) s m' s' ∧
            m'.entries ⊆ (drafts (Collected.empty.mergeAll fs) task.objectType).entries :=
        optimize_of_thins htask (drafts_keyed _ _)
      refine coincide_bind (Succeeds.coincide fun s => ?_) fun s m s' hm => ?_
      · obtain ⟨m', s', hm', -⟩ := hrevised s
        exact ⟨m', s', hm'⟩
      obtain ⟨m', s'', hm', hsub⟩ := hrevised s
      obtain ⟨rfl, -⟩ := hm.unique hm'
      refine coincide_bind (succeeds_finish _ _).coincide fun s result s' hfinish => ?_
      obtain ⟨selections, jobs⟩ := result
      refine coincide_bind (coincide_forM fun job hjob => ?_) fun _ _ _ _ => coincide_pure _
      obtain ⟨hn, hocc⟩ := leadsBelow_of_finished hsub
        (fun f hf => ⟨hwithin f hf, hbelow f hf⟩) (finished_of_runs hfinish) job hjob
      refine coincide_compileChildren hdocument hocc fun sources t hchild => ?_
      refine ih hn (by omega) (by omega) hchild fun o ho => ?_
      rcases List.mem_append.1 ho with ho | ho
      · exact htask o ho
      · exact hthins.below _ _ o ho

/-- All bounds above the number of selection sets give the same result, which is not that a bound
was reached. -/
theorem compileWithin_eq_of_lt (hdocument : input.document.Built)
    (hfragments : FragmentIndex.build input.document = .ok input.fragments)
    (hthins : input.pipeline.Thins) {bound bound' : Nat}
    (hbound : input.document.syntaxArena.selectionSets.size < bound)
    (hbound' : input.document.syntaxArena.selectionSets.size < bound') (name : Option String)
    (memory : σ) :
    input.compileWithin bound name memory = input.compileWithin bound' name memory ∧
      (input.compileWithin bound name memory).1 ≠ .error .nestingTooDeep := by
  have hclosed := hdocument.closed
  obtain ⟨depth, hdepths, hle⟩ := FragmentIndex.exists_depths hclosed hfragments
  unfold compileWithin
  cases hoperation : input.document.operation name with
  | error e => exact ⟨rfl, by simp⟩
  | ok operation =>
      dsimp only
      cases hrootType : input.schema.rootType? operation.kind with
      | none => exact ⟨rfl, by simp⟩
      | some rootType =>
          dsimp only
          have hshallow : input.Shallow depth (input.document.syntaxArena.selectionSets.size + 1)
              (input.rootTask operation.selectionSet rootType) := by
            intro c hc
            rw [List.mem_singleton.1 hc]
            exact ⟨hclosed.operation operation (Document.operation_mem hoperation),
              Nat.lt_succ_of_le (hle _)⟩
          have hroot := coincide_build hclosed (FragmentIndex.within_of_build hclosed hfragments)
            hdepths hle hthins (Nat.succ_pos _) hbound hbound' hshallow hthins.general
          have hvariant : Coincide .nestingTooDeep
              (compileVariant (input.build bound) operation.selectionSet rootType
                [⟨operation.selectionSet, .always⟩] [] input.pipeline.general)
              (compileVariant (input.build bound') operation.selectionSet rootType
                [⟨operation.selectionSet, .always⟩] [] input.pipeline.general) := by
            unfold compileVariant
            refine coincide_bind (Succeeds.coincide fun s => ⟨⟨⟩, _, runs_modify.2 rfl⟩)
              fun _ _ _ _ => coincide_bind hroot fun _ _ _ _ => ?_
            exact Succeeds.coincide fun s => ⟨⟨⟩, _, runs_modify.2 rfl⟩
          obtain ⟨heq, hne⟩ := hvariant (input.start operation.selectionSet memory)
          rw [← heq]
          refine ⟨rfl, fun h => hne ?_⟩
          rcases hrun : (compileVariant (input.build bound) operation.selectionSet rootType
            [⟨operation.selectionSet, .always⟩] [] input.pipeline.general).run.run
            (input.start operation.selectionSet memory) with ⟨result, s⟩
          rw [hrun] at h
          cases result with
          | ok u => cases h
          | error e => exact congrArg Except.error (Except.error.inj h)

theorem size_lt_nestingBound (input : CompileInput σ) :
    input.document.syntaxArena.selectionSets.size < input.nestingBound :=
  Nat.lt_add_of_pos_right (by decide)

/-- **Compiling comes to an end.** With optimizers that only thin out, the recursion never goes
deeper than the document has selection sets, whatever the schema: any bound above that number is
never reached, and all such bounds give the same result. -/
theorem compileWithin_eq_compile (hdocument : input.document.Built)
    (hfragments : FragmentIndex.build input.document = .ok input.fragments)
    (hthins : input.pipeline.Thins) {bound : Nat}
    (hbound : input.document.syntaxArena.selectionSets.size < bound) (name : Option String)
    (memory : σ) :
    input.compileWithin bound name memory = input.compile name memory ∧
      (input.compileWithin bound name memory).1 ≠ .error .nestingTooDeep :=
  compileWithin_eq_of_lt hdocument hfragments hthins hbound input.size_lt_nestingBound name memory

end CompileInput

namespace Linked

theorem fragments_eq : FragmentIndex.build document = .ok fragments := by
  unfold fragments
  exact eq_ok_okValue _

/-- Reverses all selections, takes one out, and refuses to defer spreads. -/
def thinning : Pipeline Journal :=
  ((Pipeline.empty.withOptimizer (Rule.optimizer ⟨none, none, .edit .reverse⟩)).withOptimizer
    (Rule.optimizer ⟨none, none, .edit (.swapRemove "__typename")⟩)).withOptimizer
    (Rule.optimizer ⟨none, none, .veto (some .spread) none⟩)

theorem thinning_thins : thinning.Thins := by
  refine ((Pipeline.passive_empty.thins.withOptimizer ?_).withOptimizer ?_).withOptimizer ?_
  · exact Rule.thins_optimizer trivial
  · exact Rule.thins_optimizer trivial
  · exact Rule.thins_optimizer trivial

theorem compileWithin_eq_compile_thinned :
    document.syntaxArena.selectionSets.size < 6 ∧
      (CompileInput.mk schema document fragments thinning).compileWithin 6 none [] =
        (CompileInput.mk schema document fragments thinning).compile none [] ∧
      ((CompileInput.mk schema document fragments thinning).compileWithin 6 none []).1 ≠
        .error .nestingTooDeep := by
  have hsize : document.syntaxArena.selectionSets.size < 6 := by decide +kernel
  exact ⟨hsize, CompileInput.compileWithin_eq_compile document_built fragments_eq thinning_thins
    hsize none []⟩

end Linked

end QueryPlan
