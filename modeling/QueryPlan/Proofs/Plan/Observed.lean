import QueryPlan.Proofs.Plan.Mirrored
import QueryPlan.Proofs.Plan.Observing
import QueryPlan.Proofs.Plan.Scoped

/-!
# Compiling under observation

Optimizers that only observe do not change what is compiled. A compilation with some observers and
one with others go through their steps together: they collect the same, they leave all drafts as
they are, and they claim keys that are paired, though what observers put into the synthetic syntax
lies between the copies of selection sets. So both fail with the same error, or their plans are the
same but for the ids of synthetic selection sets, which stand in the same order.
-/

set_option autoImplicit false

namespace QueryPlan

open CompileState (Later Pairs PairsSets Renames)

variable {σ τ : Type}

/-- A set of the document may be the only source. -/
theorem Document.Has.source {d : Document} {set : SelectionSetId} (h : d.Has set) :
    ∀ c ∈ [(⟨set, .always⟩ : ClausedSet)], d.Has c.selectionSet := by
  intro c hc
  rw [List.mem_singleton.1 hc]
  exact h

namespace CompileInput

variable {input : CompileInput σ} {pipeline : Pipeline τ} {s : CompileState σ} {t : CompileState τ}

/-! ## Collecting -/

/-- The walk decides whether collecting fails. -/
theorem run_collect_error {context : PlanContext} {optimizers : List (Optimizer σ)}
    {sources : List ClausedSet} {e : CompileError}
    (h : (((input.scope context optimizers s).collectAll sources).run.run s.memory).1 = .error e) :
    ((input.collect context optimizers sources).run.run s).1 = .error e := by
  unfold CompileInput.collect
  rw [run_bind_of_runs (runs_get.2 ⟨rfl, rfl⟩)]
  unfold scope at h
  rcases hrun : ((CollectScope.mk context input.fragments (s.view input.document)
    optimizers).collectAll sources).run.run s.memory with ⟨result, memory⟩
  rw [hrun] at h
  obtain rfl : result = .error e := h
  dsimp only
  rw [hrun]
  rfl

/-- What was collected refers to the document only. -/
structure Gathered (d : Document) (c : Collected) : Prop where
  deferrals : ∀ p ∈ c.deferrals, d.Has p.selectionSet
  live : ∀ l ∈ liveOccurrences c, ∀ o ∈ l.2, d.syntaxArena.Resolves (.field o.node)
  nodes : ∀ e ∈ c.fields.entries, ∀ id ∈ e.2.nodes, d.syntaxArena.Resolves (.field id)
  sets : ∀ e ∈ c.fields.entries, ∀ set, e.2.selectionSet = some set → d.Has set

/-- What was collected refers to the document only if what was found does. -/
theorem gathered_of_within {d : Document} (hd : d.Closed) {fs : List Found}
    (hwithin : ∀ f ∈ fs, f.Within d) : Gathered d (Collected.empty.mergeAll fs) := by
  obtain ⟨hlive, hentries⟩ := collected_nodes
    (P := fun id => d.syntaxArena.Resolves (.field id))
    fun {node _ _} hmem => ⟨node, hwithin _ hmem⟩
  refine ⟨fun p hp => hwithin _ (Collected.mem_deferrals_collected.1 hp), hlive,
    fun e he => (hentries e he).1, fun e he set hset => ?_⟩
  obtain ⟨-, node, field, clause, hmem, hnode⟩ := hentries e he
  exact hd.has_of_field (hwithin _ hmem) (hnode ▸ hset)

/-- From selections of the document only what is in the document is collected. -/
theorem gathered_of_runs (hindexed : input.Indexed) {context : PlanContext}
    {optimizers : List (Optimizer σ)} {sources : List ClausedSet} {s s' : CompileState σ}
    {c : Collected}
    (hsources : ∀ c ∈ sources, ∀ sel ∈ (s.view input.document).selectionsOf c.selectionSet,
      input.document.syntaxArena.Resolves sel)
    (h : Runs (input.collect context optimizers sources) s c s') : Gathered input.document c := by
  obtain ⟨memory, hwalk, -⟩ := runs_collect.1 h
  obtain ⟨fs, hfs, rfl⟩ := CollectScope.collectAll_flattens (CollectScope.answers_any _) hwalk
  exact gathered_of_within hindexed.document.closed
    (hfs.within hindexed.document.closed hindexed.within rfl hsources)

/-- The same is collected, whichever observers are asked. -/
theorem lockstep_collect (hindexed : input.Indexed) {context : PlanContext}
    {os : List (Optimizer σ)} {os' : List (Optimizer τ)} {sources : List ClausedSet}
    (hos : ∀ o ∈ os, o.Observes) (hos' : ∀ o ∈ os', o.Observes)
    (hsources : ∀ c ∈ sources, input.document.Has c.selectionSet) :
    Lockstep input.document (fun _ _ c c' => c' = c ∧ Gathered input.document c)
      (input.collect context os sources)
      ((input.withPipeline pipeline).collect context os' sources) s t := by
  intro hmirrors
  have htwins : (input.scope context os s).Twins input.document
      ((input.withPipeline pipeline).scope context os' t) :=
    ⟨rfl, rfl, rfl, rfl, fun o ho => (hos o ho).allows, fun o ho => (hos' o ho).allows⟩
  rcases CollectScope.sameResult_collectAll hindexed.document.closed hindexed.fragments htwins
    hsources s.memory t.memory with ⟨e, hs, ht⟩ | ⟨c, memory, c', memory', hs, ht, hc⟩
  · exact Or.inl ⟨e, run_collect_error hs, run_collect_error ht⟩
  · have hrun := runs_collect.2 ⟨memory, hs, rfl⟩
    refine together_of_runs hrun (runs_collect.2 ⟨memory', ht, rfl⟩)
      ⟨?_, .of_claimed_eq rfl rfl, hc, gathered_of_runs hindexed (fun c hc =>
        hindexed.document.closed.resolves_selectionsOf rfl (hsources c hc)) hrun⟩
    exact hmirrors.revised (revised_collect hrun)
      (revised_collect (runs_collect.2 ⟨memory', ht, rfl⟩))

/-- All drafts stay as they are. -/
theorem lockstep_optimize {context : PlanContext} {os : List (Optimizer σ)}
    {os' : List (Optimizer τ)} {m : SelectionMap} (hos : ∀ o ∈ os, o.Observes)
    (hos' : ∀ o ∈ os', o.Observes) (hkeys : ∀ e ∈ m.entries, e.1 = e.2.responseKey) :
    Lockstep input.document (fun _ _ m₁ m₂ => m₁ = m ∧ m₂ = m) (input.optimize context os m)
      ((input.withPipeline pipeline).optimize context os' m) s t := by
  intro hmirrors
  obtain ⟨s', hs, hrevised⟩ : ∃ s', Runs (input.optimize context os m) s m s' ∧ s.Revised s' :=
    optimize_of_keeps (fun o ho => (hos o ho).keeps) hkeys s
  obtain ⟨t', ht, hrevised'⟩ :
      ∃ t', Runs ((input.withPipeline pipeline).optimize context os' m) t m t' ∧ t.Revised t' :=
    optimize_of_keeps (fun o ho => (hos' o ho).keeps) hkeys t
  have hlater : Later s t s' t' := by
    obtain ⟨_, _, rfl, -⟩ := hrevised
    obtain ⟨_, _, rfl, -⟩ := hrevised'
    exact .of_claimed_eq rfl rfl
  exact together_of_runs hs ht ⟨hmirrors.revised hrevised hrevised', hlater, rfl, rfl⟩

/-! ## Finishing -/

/-- Both jobs are for the same occurrences, under keys that are paired. -/
structure PairsJobs (s : CompileState σ) (t : CompileState τ) (job job' : ChildJob) : Prop where
  keys : Pairs s t job.key job'.key
  eq : job' = { job with key := job'.key }

theorem PairsJobs.later {s' : CompileState σ} {t' : CompileState τ} {job job' : ChildJob}
    (h : PairsJobs s t job job') (hlater : Later s t s' t') : PairsJobs s' t' job job' :=
  ⟨h.keys.later hlater, h.eq⟩

/-- What is finished on both sides: selections that every renaming takes to one another, and jobs
in step. -/
structure PairsFinished (s : CompileState σ) (t : CompileState τ)
    (r r' : List Selection × List ChildJob) : Prop where
  selections : ∀ f, Renames f s t → r'.1 = r.1.map (Selection.rename f)
  jobs : List.Forall₂ (PairsJobs s t) r.2 r'.2

/-- The same drafts are finished to selections and jobs with the same ids, under keys that are
paired. -/
theorem lockstep_finish {ds : List SelectionDraft}
    (hds : ∀ d ∈ ds, ∀ set, d.selectionSet = some set → input.document.Has set)
    (live : LiveOccurrences) (s : CompileState σ) (t : CompileState τ) :
    Lockstep input.document
      (fun s' t' r r' => PairsFinished s' t' r r' ∧ Finished live ds r.1 r.2)
      (input.finish live ds) ((input.withPipeline pipeline).finish live ds) s t := by
  induction ds generalizing live s t with
  | nil => exact lockstep_pure ⟨⟨fun _ _ => rfl, .nil⟩, .nil⟩
  | cons d ds ih =>
      rw [List.forall_mem_cons] at hds
      rw [finish, finish]
      refine lockstep_takeId.bind fun id s₁ id' t₁ _ hid => ?_
      obtain rfl : id' = id := hid
      cases hset : d.selectionSet with
      | none =>
          refine (ih hds.2 live s₁ t₁).bind fun r s₂ r' t₂ _ hr => ?_
          obtain ⟨hr, hfinished⟩ := hr
          refine lockstep_pure ⟨⟨fun f hf => ?_, hr.jobs⟩, .leaf hset hfinished⟩
          show _ :: r'.1 = Selection.rename f _ :: r.1.map (Selection.rename f)
          rw [hr.selections f hf, Selection.rename_of_leaf hset]
      | some key =>
          refine (lockstep_claim (hds.1 key hset)).bind fun k s₂ k' t₂ _ hk => ?_
          refine (ih hds.2 _ s₂ t₂).bind fun r s₃ r' t₃ hlater hr => ?_
          obtain ⟨hr, hfinished⟩ := hr
          have hk' := hk.later hlater
          refine lockstep_pure ⟨⟨fun f hf => ?_, .cons ⟨hk', rfl⟩ hr.jobs⟩, .inner hset hfinished⟩
          show _ :: r'.1 = Selection.rename f _ :: r.1.map (Selection.rename f)
          rw [hr.selections f hf, hk'.renames f hf]
          rfl

/-! ## Building -/

/-- From the same sources of the document, and with whatever observers, both builds come to
selection sets that are paired. -/
def BuildAlike (d : Document) (build : Build σ) (build' : Build τ) : Prop :=
  ∀ ⦃objectType sources path os os' s t⦄, (∀ c ∈ sources, d.Has c.selectionSet) →
    (∀ o ∈ os, o.Observes) → (∀ o ∈ os', o.Observes) →
    Lockstep d PairsSets (build objectType sources path os) (build' objectType sources path os') s t

section Loops

variable {d : Document} {build : Build σ} {build' : Build τ} {objectType : ObjectType}
  {path : List PathSegment} {os : List (Optimizer σ)} {os' : List (Optimizer τ)}

/-- The part of a deferred fragment is built alike. -/
theorem BuildAlike.deferral (hb : BuildAlike d build build') {p : PendingDeferral}
    (hp : d.Has p.selectionSet) (hos : ∀ o ∈ os, o.Observes) (hos' : ∀ o ∈ os', o.Observes) :
    Lockstep d (fun s' t' e e' => ∀ f, Renames f s' t' → e' = renameDeferredFragment f e)
      (buildDeferral build ⟨objectType, [], path, os⟩ p)
      (buildDeferral build' ⟨objectType, [], path, os'⟩ p) s t := by
  unfold buildDeferral
  refine (hb hp.source hos hos').bind fun set s₁ set' t₁ _ hset => lockstep_pure fun f hf => ?_
  rw [hset f hf]
  rfl

theorem BuildAlike.deferrals (hb : BuildAlike d build build') {ps : List PendingDeferral}
    (hps : ∀ p ∈ ps, d.Has p.selectionSet) (hos : ∀ o ∈ os, o.Observes)
    (hos' : ∀ o ∈ os', o.Observes) :
    Lockstep d (fun s' t' es es' => ∀ f, Renames f s' t' → es' = es.map (renameDeferredFragment f))
      (ps.mapM (buildDeferral build ⟨objectType, [], path, os⟩))
      (ps.mapM (buildDeferral build' ⟨objectType, [], path, os'⟩)) s t := by
  induction ps generalizing s t with
  | nil => exact lockstep_pure fun _ _ => rfl
  | cons p ps ih =>
      rw [List.forall_mem_cons] at hps
      rw [List.mapM_cons, List.mapM_cons]
      refine (hb.deferral hps.1 hos hos').bind fun e s₁ e' t₁ _ he => ?_
      refine (ih hps.2).bind fun es s₂ es' t₂ hlater hes => lockstep_pure fun f hf => ?_
      rw [he f (hlater.renames f hf), hes f hf, List.map_cons]

/-- What is built for a type is stored under keys that are paired. -/
theorem BuildAlike.variant (hb : BuildAlike d build build') {k k' : SelectionSetId}
    (hk : Pairs s t k k') {sources : List ClausedSet}
    (hsources : ∀ c ∈ sources, d.Has c.selectionSet) (hos : ∀ o ∈ os, o.Observes)
    (hos' : ∀ o ∈ os', o.Observes) :
    Lockstep d (fun _ _ _ _ => True) (compileVariant build k objectType sources path os)
      (compileVariant build' k' objectType sources path os') s t := by
  unfold compileVariant
  have hreach : Later s t (s.reach k) (t.reach k') :=
    .of_claimed_eq (CompileState.claimed_reach s k) (CompileState.claimed_reach t k')
  refine (lockstep_modify (fun h => h.reach hk) hreach).bind fun _ s₁ _ t₁ hlater₁ _ => ?_
  refine (hb hsources hos hos').bind fun set s₂ set' t₂ hlater₂ hset => ?_
  exact lockstep_modify (fun h => h.store ((hk.later hlater₁).later hlater₂) hset)
    (.of_claimed_eq rfl rfl)

end Loops

/-- Every view of the document shows the same sub-selections of its fields, sets of its own. -/
theorem sourcesOf_of_resolves {d : Document} (hd : d.Closed) {occurrences : List Occurrence}
    (hnodes : ∀ o ∈ occurrences, d.syntaxArena.Resolves (.field o.node)) {v : SyntaxView}
    (hv : v.document = d.syntaxArena) :
    sourcesOf v occurrences = sourcesOf d.view occurrences ∧
      ∀ c ∈ sourcesOf v occurrences, d.Has c.selectionSet := by
  constructor
  · refine List.filterMap_congr fun o ho => ?_
    obtain ⟨node, hn⟩ := hnodes o ho
    rw [SyntaxView.field?_of_document (hv.symm ▸ hn),
      SyntaxView.field?_of_document (v := d.view) hn]
  · intro c hc
    obtain ⟨o, ho, hsource⟩ := List.mem_filterMap.1 hc
    obtain ⟨node, hn⟩ := hnodes o ho
    rw [SyntaxView.field?_of_document (hv.symm ▸ hn), Option.bind_some] at hsource
    obtain ⟨inner, hinner, rfl⟩ := Option.map_eq_some_iff.1 hsource
    exact hd.has_of_field hn hinner

/-- The sub-selections of jobs that are paired are compiled alike. -/
theorem BuildAlike.child {build : Build σ} {build' : Build τ}
    (hb : BuildAlike input.document build build') (hd : input.document.Closed)
    (hobserves : input.pipeline.Observes) (hobserves' : pipeline.Observes) {job job' : ChildJob}
    (hjob : PairsJobs s t job job')
    (hnodes : ∀ o ∈ job.occurrences, input.document.syntaxArena.Resolves (.field o.node))
    {path : List PathSegment} {os : List (Optimizer σ)} {os' : List (Optimizer τ)}
    (hos : ∀ o ∈ os, o.Observes) (hos' : ∀ o ∈ os', o.Observes) :
    Lockstep input.document (fun _ _ _ _ => True) (input.compileChildren build path os job)
      ((input.withPipeline pipeline).compileChildren build' path os' job') s t := by
  rw [hjob.eq]
  unfold compileChildren
  refine lockstep_get.bind fun s₀ s₁ t₀ t₁ hlater₁ _ => ?_
  have hk := hjob.keys.later hlater₁
  have hreach : Later s₁ t₁ (s₁.reach job.key) (t₁.reach job'.key) :=
    .of_claimed_eq (CompileState.claimed_reach _ _) (CompileState.claimed_reach _ _)
  refine (lockstep_modify (fun h => h.reach hk) hreach).bind fun _ s₂ _ t₂ hlater₂ _ => ?_
  obtain ⟨hsources, hhas⟩ := sourcesOf_of_resolves hd hnodes (v := s₀.view input.document) rfl
  obtain ⟨hsources', -⟩ := sourcesOf_of_resolves hd hnodes (v := t₀.view input.document) rfl
  have hbelow : ∀ o ∈ os ++ input.pipeline.below job.declaringType job.field.name, o.Observes :=
    List.forall_mem_append.2 ⟨hos, hobserves.below _ _⟩
  have hbelow' : ∀ o ∈ os' ++ pipeline.below job.declaringType job.field.name, o.Observes :=
    List.forall_mem_append.2 ⟨hos', hobserves'.below _ _⟩
  refine lockstep_forM (R := Eq) (List.forall₂_refl _) fun type type' htype s₃ t₃ hlater₃ => ?_
  obtain rfl := htype
  have heq : sourcesOf (t₀.view input.document) job.occurrences =
      sourcesOf (s₀.view input.document) job.occurrences := hsources'.trans hsources.symm
  show Lockstep _ _ _ (compileVariant build' job'.key type
    (sourcesOf (t₀.view input.document) job.occurrences) _ _) s₃ t₃
  rw [heq]
  exact hb.variant ((hk.later hlater₂).later hlater₃) hhas hbelow hbelow'

/-- The drafts of what was collected refer to the document only. -/
theorem Gathered.drafts {d : Document} {c : Collected} (h : Gathered d c)
    (objectType : ObjectType) :
    ∀ e ∈ (drafts c objectType).values,
      (∀ id ∈ e.nodes, d.syntaxArena.Resolves (.field id)) ∧
        ∀ set, e.selectionSet = some set → d.Has set := by
  intro e he
  obtain ⟨entry, hentry, rfl⟩ := List.mem_map.1 he
  obtain ⟨field, hfield, rfl⟩ := List.mem_map.1 hentry
  exact ⟨h.nodes field hfield, h.sets field hfield⟩

/-- **Builds with different observers do alike**, however deep they go. -/
theorem buildAlike (hindexed : input.Indexed) (hobserves : input.pipeline.Observes)
    (hobserves' : pipeline.Observes) (fuel : Nat) :
    BuildAlike input.document (input.build fuel) ((input.withPipeline pipeline).build fuel) := by
  induction fuel with
  | zero => exact fun _ _ _ _ _ _ _ _ _ _ => lockstep_throw _
  | succ fuel ih =>
      intro objectType sources path os os' s t hsources hos hos'
      rw [CompileInput.build, CompileInput.build]
      refine (lockstep_collect hindexed hos hos' hsources).bind
        fun c s₁ c' t₁ _ ⟨hc, hgathered⟩ => ?_
      rw [hc]
      refine (ih.deferrals hgathered.deferrals hos hos').bind fun es s₂ es' t₂ _ hes => ?_
      refine (lockstep_optimize hos hos' (drafts_keyed c objectType)).bind
        fun m s₃ m' t₃ hlater₃ ⟨hm, hm'⟩ => ?_
      subst hm hm'
      have hdrafts := hgathered.drafts objectType
      refine (lockstep_finish (fun e he => (hdrafts e he).2) _ s₃ t₃).bind
        fun r s₄ r' t₄ hlater₄ ⟨hr, hfinished⟩ => ?_
      -- the occurrences of all jobs are nodes of the document
      have hnodes : ∀ job ∈ r.2, ∀ o ∈ job.occurrences,
          input.document.syntaxArena.Resolves (.field o.node) := fun job hjob =>
        (hfinished.job_nodes hgathered.live (fun e he => (hdrafts e he).1) job hjob).2
      refine (lockstep_forM ((List.forall₂_and_left _ _).2 ⟨hnodes, hr.jobs⟩)
        fun job job' ⟨hnodes, hjob⟩ s₅ t₅ hlater₅ => ?_).bind fun _ s₅ _ t₅ hlater₅ _ => ?_
      · exact ih.child hindexed.document.closed hobserves hobserves' (hjob.later hlater₅) hnodes
          hos hos'
      · refine lockstep_pure fun f hf => ?_
        have hf₄ := hlater₅.renames f hf
        have hf₂ := hlater₃.renames f (hlater₄.renames f hf₄)
        rw [SelectionSet.rename_mk, hr.selections f hf₄, hes f hf₂]

/-! ## Plans -/

/-- Before anything is compiled the states mirror one another, and the root is paired with
itself. -/
theorem mirrors_start {p : Pipeline τ} {root : SelectionSetId} (hroot : input.document.Has root)
    (memory : σ) (memory' : τ) :
    (input.start root memory).Mirrors input.document ((input.withPipeline p).start root memory') ∧
      Pairs (input.start root memory) ((input.withPipeline p).start root memory') root root := by
  obtain ⟨node, hnode⟩ := hroot
  refine ⟨⟨rfl, rfl, rfl, ⟨id, rfl, ⟨fun _ _ => rfl, fun _ _ h => h, fun _ _ _ _ h => h⟩, ?_⟩,
    List.nil_subset _, fun _ _ => rfl⟩, List.mem_singleton_self root, fun f hf => ?_⟩
  · intro k hk
    obtain rfl := List.mem_singleton.1 hk
    exact ⟨node, node, SyntaxView.selectionSet?_of_document hnode,
      SyntaxView.selectionSet?_of_document hnode, rfl, rfl⟩
  · exact (List.cons.inj hf).1

/-- Plans that mirrored states leave are the same but for their keys. -/
theorem exists_renamed (h : s.Mirrors input.document t) (operation : OperationNode)
    (rootType : ObjectType) :
    ∃ f, KeyRenaming input.document (input.planOf operation rootType s).variants.keys f ∧
      (input.planOf operation rootType s).Renamed f
        ((input.withPipeline pipeline).planOf operation rootType t) := by
  obtain ⟨f, hf, hkeys, hsame⟩ := h.claimed
  exact ⟨f, hkeys.mono h.keys, rfl, rfl, rfl, h.nextId, h.variants f hf,
    fun k hk => hsame k (h.keys hk)⟩

/-- An operation of a known type is compiled by building its root. -/
theorem compileWithin_eq_error {bound : Nat} {name : Option String} {memory : σ}
    {operation : OperationNode} {rootType : ObjectType} {e : CompileError}
    (hoperation : input.document.operation name = .ok operation)
    (hrootType : input.schema.rootType? operation.kind = some rootType)
    (h : ((compileVariant (input.build bound) operation.selectionSet rootType
      [⟨operation.selectionSet, .always⟩] [] input.pipeline.general).run.run
      (input.start operation.selectionSet memory)).1 = .error e) :
    (input.compileWithin bound name memory).1 = .error e := by
  unfold compileWithin
  rw [hoperation]
  dsimp only
  rw [hrootType]
  dsimp only
  rcases hrun : (compileVariant (input.build bound) operation.selectionSet rootType
    [⟨operation.selectionSet, .always⟩] [] input.pipeline.general).run.run
    (input.start operation.selectionSet memory) with ⟨result, s⟩
  rw [hrun] at h
  obtain rfl : result = .error e := h
  rfl

/-- Both compilations of an operation build its root in lockstep. -/
theorem together_root (hindexed : input.Indexed) (hobserves : input.pipeline.Observes)
    (hobserves' : pipeline.Observes) (bound : Nat) {root : SelectionSetId}
    (hroot : input.document.Has root) (rootType : ObjectType) (memory : σ) (memory' : τ) :
    Together (fun _ s _ t => s.Mirrors input.document t)
      (compileVariant (input.build bound) root rootType [⟨root, .always⟩] []
        input.pipeline.general)
      (compileVariant ((input.withPipeline pipeline).build bound) root rootType
        [⟨root, .always⟩] [] pipeline.general)
      (input.start root memory) ((input.withPipeline pipeline).start root memory') := by
  obtain ⟨hmirrors, hpairs⟩ := mirrors_start (p := pipeline) hroot memory memory'
  have hbuild := buildAlike hindexed hobserves hobserves' bound
  refine (hbuild.variant hpairs hroot.source hobserves.general hobserves'.general hmirrors).mono ?_
  exact fun _ _ _ _ _ h => h.1

/-- Two compilations with observers fail with the same error, or their plans are the same but for
their keys. -/
theorem compileWithin_alike (hindexed : input.Indexed) (hobserves : input.pipeline.Observes)
    (hobserves' : pipeline.Observes) (bound : Nat) (name : Option String) (memory : σ)
    (memory' : τ) :
    (∃ e, (input.compileWithin bound name memory).1 = .error e ∧
      ((input.withPipeline pipeline).compileWithin bound name memory').1 = .error e) ∨
    ∃ p m p' m', input.compileWithin bound name memory = (.ok p, m) ∧
      (input.withPipeline pipeline).compileWithin bound name memory' = (.ok p', m') ∧
      ∃ f, KeyRenaming input.document p.variants.keys f ∧ p.Renamed f p' := by
  cases hoperation : input.document.operation name with
  | error e =>
      refine Or.inl ⟨.lookup e, ?_, ?_⟩
      · unfold compileWithin
        rw [hoperation]
      · show ((input.withPipeline pipeline).compileWithin bound name memory').1 = _
        unfold compileWithin
        rw [show (input.withPipeline pipeline).document.operation name = .error e from hoperation]
  | ok operation =>
      cases hrootType : input.schema.rootType? operation.kind with
      | none =>
          refine Or.inl ⟨.noRootType operation.kind, ?_, ?_⟩
          · unfold compileWithin
            rw [hoperation]
            dsimp only
            rw [hrootType]
          · unfold compileWithin
            rw [show (input.withPipeline pipeline).document.operation name = .ok operation from
              hoperation]
            dsimp only
            rw [show (input.withPipeline pipeline).schema.rootType? operation.kind = none from
              hrootType]
      | some rootType =>
          have hroot := hindexed.document.closed.operation operation
            (Document.operation_mem hoperation)
          rcases together_root hindexed hobserves hobserves' bound hroot rootType memory memory'
            with ⟨e, hs, ht⟩ | ⟨_, s, _, t, hs, ht, hst⟩
          · exact Or.inl ⟨e, compileWithin_eq_error hoperation hrootType hs,
              compileWithin_eq_error hoperation hrootType ht⟩
          · refine Or.inr ⟨_, _, _, _, compileWithin_eq_ok_iff.2
              ⟨operation, rootType, s, hoperation, hrootType, hs, rfl, rfl⟩,
              compileWithin_eq_ok_iff.2 ⟨operation, rootType, t, hoperation, hrootType, ht, rfl,
                rfl⟩, exists_renamed hst operation rootType⟩

/-- **Optimizers that only observe do not change what is compiled.** With and without them the
compilation of an operation fails with the same error, or two plans come of it that are the same
but for the keys of synthetic selection sets, which stay in order. Both plans have as many
selections, meet them with the same ids and print the same text. -/
theorem compileWithin_of_observes (hschema : input.schema.Built) (hindexed : input.Indexed)
    (hobserves : input.pipeline.Observes) (bound : Nat) (name : Option String)
    (memory memory' : σ) :
    (∃ e, (input.compileWithin bound name memory).1 = .error e ∧
      (input.unoptimized.compileWithin bound name memory').1 = .error e) ∨
    ∃ p p', (input.compileWithin bound name memory).1 = .ok p ∧
      (input.unoptimized.compileWithin bound name memory').1 = .ok p' ∧
      (∃ f, KeyRenaming input.document p'.variants.keys f ∧ p'.Renamed f p) ∧
      p.print = p'.print ∧
      (p.metBelow p.root).map (·.id) = (p'.metBelow p'.root).map (·.id) ∧
      p.selectionCount = p'.selectionCount := by
  rcases compileWithin_alike hindexed.unoptimized Pipeline.observes_empty hobserves bound name
    memory' memory with ⟨e, h', h⟩ | ⟨p', m', p, m, h', h, f, hkeys, hrenamed⟩
  · exact Or.inl ⟨e, h, h'⟩
  · have hcompiled := hindexed.compiled_unoptimized hschema h'
    -- the root is a set of the document, so it keeps its key
    obtain ⟨node, hnode⟩ := hindexed.document.closed.operation p'.operation
      (Document.operation_mem hcompiled.operation)
    have hroot : f p'.root = p'.root :=
      hkeys.document p'.root (SyntaxArena.lt_of_selectionSet? hnode)
    have htree := hcompiled.isTree
    exact Or.inr ⟨p, p', congrArg Prod.fst h, congrArg Prod.fst h', ⟨f, hkeys, hrenamed⟩,
      hrenamed.print_eq htree hroot, hrenamed.ids_eq htree hroot, hrenamed.selectionCount⟩

end CompileInput

namespace Linked

/-- Lowers a field with sub-selections at every selection set, and writes down what is below the
links of leaves. -/
def watched : CompileInput Journal where
  schema := schema
  document := document
  fragments := fragments
  pipeline :=
    (Pipeline.empty.withOptimizer
      (Rule.optimizer ⟨none, none, .lower "next \x7b __typename \x7d"⟩)).withFieldOptimizer
      "Leaf" "next" (Rule.optimizer ⟨none, none, .record "links"⟩)

theorem watched_observes : watched.pipeline.Observes := by
  refine (Pipeline.observes_empty.withOptimizer ?_).withFieldOptimizer ?_ _ _
  · have hfield : (fieldOfSource "next \x7b __typename \x7d").isOk = true := by decide +kernel
    exact Rule.observes_optimizer hfield
  · exact Rule.observes_optimizer trivial

/-- The keys of the two plans differ, though all that is said about them holds. -/
theorem compileWithin_of_observes_linked : ∃ p p',
    (watched.compileWithin 10 none []).1 = .ok p ∧
      (watched.unoptimized.compileWithin 10 none []).1 = .ok p' ∧
      p.variants.keys ≠ p'.variants.keys ∧
      (∃ f, KeyRenaming watched.document p'.variants.keys f ∧ p'.Renamed f p) ∧
      p.print = p'.print ∧
      (p.metBelow p.root).map (·.id) = (p'.metBelow p'.root).map (·.id) ∧
      p.selectionCount = p'.selectionCount := by
  have hkeys : ((watched.compileWithin 10 none []).1.toOption.map fun p => p.variants.keys) ≠
      (watched.unoptimized.compileWithin 10 none []).1.toOption.map fun p => p.variants.keys := by
    decide +kernel
  rcases CompileInput.compileWithin_of_observes schema_built ⟨document_built, fragments_eq⟩
    watched_observes 10 none [] [] with ⟨e, h, h'⟩ | ⟨p, p', h, h', hrest⟩
  · rw [h, h'] at hkeys
    exact absurd rfl hkeys
  · rw [h, h'] at hkeys
    exact ⟨p, p', h, h', fun heq => hkeys (congrArg some heq), hrest⟩

end Linked

end QueryPlan
