import QueryPlan.Proofs.Plan.Abreast
import QueryPlan.Proofs.Plan.Levels
import QueryPlan.Proofs.Plan.Observed

/-!
# What was compiled before does not matter

Without optimizers a selection set depends on the type that it is built for and on its sources. Two
builds that start in whatever states, at whatever paths, collect the same, finish it to selections
with keys that are paired, and go on to the same sub-selections; so they fail with the same error,
or what they build is the same but for ids and keys. In plans this holds wherever one selection set
of the document is reached: it is printed and executed alike.
-/

set_option autoImplicit false

namespace QueryPlan

open CompileState (Abreast Coherent)

variable {σ : Type}

/-! ## Collecting -/

namespace CollectScope

variable {schema : Schema} {t : ObjectType} {path path' : List PathSegment}
  {fragments : FragmentIndex} {view : SyntaxView}

/-- Where no optimizer is asked, the path is not looked at. -/
theorem collect_path (fuel : Nat) :
    collect ⟨⟨schema, t, path⟩, fragments, view, ([] : List (Optimizer σ))⟩ fuel =
      collect ⟨⟨schema, t, path'⟩, fragments, view, []⟩ fuel := by
  induction fuel with
  | zero => rfl
  | succ fuel ih =>
      funext set clause acc
      rw [collect_succ, collect_succ, ih]
      refine congrArg (fun f => List.foldlM f acc _) (funext fun acc => funext fun sel => ?_)
      cases sel with
      | field | inlineFragment | spread => rfl

theorem collectAll_path (sources : List ClausedSet) :
    collectAll ⟨⟨schema, t, path⟩, fragments, view, ([] : List (Optimizer σ))⟩ sources =
      collectAll ⟨⟨schema, t, path'⟩, fragments, view, []⟩ sources := by
  rw [collectAll, collectAll, collect_path]
  rfl

end CollectScope

namespace CompileInput

variable {input : CompileInput σ} {s₀ t₀ s t : CompileState σ} {r : Renumbering}

theorem collect_path (t : ObjectType) (path path' : List PathSegment) (sources : List ClausedSet) :
    input.collect ⟨input.schema, t, path⟩ [] sources =
      input.collect ⟨input.schema, t, path'⟩ [] sources := by
  unfold CompileInput.collect
  refine congrArg (fun f => get >>= f) (funext fun s => ?_)
  dsimp only
  rw [CollectScope.collectAll_path]

/-- Without optimizers nothing is revised. -/
theorem optimize_nil (context : PlanContext) (m : SelectionMap) :
    input.optimize context [] m = pure m :=
  rfl

/-- From states that are abreast the same is collected, at whatever paths, if both views share the
sources. -/
theorem together_collect (hindexed : input.Indexed) (habreast : Abreast input.document s₀ t₀ r s t)
    {sources : List ClausedSet}
    (hsources : ∀ c ∈ sources,
      (s.view input.document).Shares input.document (t.view input.document) c.selectionSet)
    (objectType : ObjectType) (path path' : List PathSegment) :
    Together (fun c s' c' t' => Abreast input.document s₀ t₀ r s' t' ∧ c' = c ∧
        Gathered input.document c)
      (input.collect ⟨input.schema, objectType, path⟩ [] sources)
      (input.collect ⟨input.schema, objectType, path'⟩ [] sources) s t := by
  rw [collect_path objectType path' path]
  have htwins : (input.scope ⟨input.schema, objectType, path⟩ [] s).Twins input.document
      (input.scope ⟨input.schema, objectType, path⟩ [] t) :=
    ⟨rfl, rfl, rfl, rfl, List.forall_mem_nil _, List.forall_mem_nil _⟩
  rcases CollectScope.sameResult_collectAll_of_shares hindexed.document.closed hindexed.fragments
    htwins hsources s.memory t.memory with ⟨e, hs, ht⟩ | ⟨c, memory, c', memory', hs, ht, hc⟩
  · exact Or.inl ⟨e, run_collect_error hs, run_collect_error ht⟩
  · have hrun := runs_collect.2 ⟨memory, hs, rfl⟩
    have hrun' := runs_collect.2 ⟨memory', ht, rfl⟩
    refine together_of_runs hrun hrun'
      ⟨habreast.revised (revised_collect hrun) (revised_collect hrun'), hc, ?_⟩
    exact gathered_of_runs hindexed (fun c hc => (hsources c hc).resolves) hrun

/-! ## Finishing -/

/-- Both jobs are for the same occurrences, under keys that are paired. -/
structure JobsRenumbered (r : Renumbering) (job job' : ChildJob) : Prop where
  key : r.Key job.key job'.key
  eq : job' = { job with key := job'.key }

theorem JobsRenumbered.grow {r' : Renumbering} {job job' : ChildJob} (h : JobsRenumbered r job job')
    (hr : r.Grows r') : JobsRenumbered r' job job' :=
  ⟨hr.key h.key, h.eq⟩

/-- The same drafts are finished to selections that are renumbered, and to jobs in step. -/
theorem runsAbreast_finish {ds : List SelectionDraft}
    (hds : ∀ d ∈ ds, ∀ set, d.selectionSet = some set → input.document.Has set)
    (live : LiveOccurrences) :
    RunsAbreast input.document s₀ t₀ r
      (fun r p p' => List.Forall₂ (Selection.Renumbered r) p.1 p'.1 ∧
        List.Forall₂ (JobsRenumbered r) p.2 p'.2)
      (input.finish live ds) (input.finish live ds) := by
  induction ds generalizing live r with
  | nil => exact runsAbreast_pure ⟨.nil, .nil⟩
  | cons d ds ih =>
      rw [List.forall_mem_cons] at hds
      rw [finish]
      refine runsAbreast_takeId.bind fun r₁ id id' _ hid => ?_
      cases hset : d.selectionSet with
      | none =>
          refine (ih hds.2 live).bind fun r₂ p p' hgrows hrest => ?_
          refine runsAbreast_pure ⟨.cons ⟨rfl, hgrows.id hid, ?_⟩ hrest.1, hrest.2⟩
          show Option.Rel r₂.Key d.selectionSet d.selectionSet
          rw [hset]
          exact .none
      | some key =>
          refine (runsAbreast_claim (hds.1 key hset)).bind fun r₂ k k' hgrows₂ hk => ?_
          refine (ih hds.2 _).bind fun r₃ p p' hgrows₃ hrest => ?_
          have hk' := hgrows₃.key hk
          exact runsAbreast_pure
            ⟨.cons ⟨rfl, hgrows₃.id (hgrows₂.id hid), .some hk'⟩ hrest.1,
              .cons ⟨hk', rfl⟩ hrest.2⟩

/-! ## Building -/

/-- From states that are abreast and share the sources, at whatever paths, both builds come to
selection sets that are renumbered, or fail with the same error. -/
def BuildsAbreast (d : Document) (build : Build σ) : Prop :=
  ∀ ⦃s₀ t₀ s t r sources⦄, Abreast d s₀ t₀ r s t →
    (∀ c ∈ sources, (s.view d).Shares d (t.view d) c.selectionSet) →
    ∀ objectType path path',
      Together (fun set s' set' t' => ∃ r', r.Grows r' ∧ Abreast d s₀ t₀ r' s' t' ∧
          set.Renumbered r' set')
        (build objectType sources path []) (build objectType sources path' []) s t

section Loops

variable {d : Document} {build : Build σ} {objectType : ObjectType} {path path' : List PathSegment}

/-- All states share the sources that are sets of the document. -/
theorem BuildsAbreast.runs (hb : BuildsAbreast d build) (hd : d.Closed) {sources : List ClausedSet}
    (hsources : ∀ c ∈ sources, d.Has c.selectionSet) :
    RunsAbreast d s₀ t₀ r (fun r set set' => set.Renumbered r set')
      (build objectType sources path []) (build objectType sources path' []) :=
  fun _ _ habreast =>
    hb habreast (fun c hc => (hsources c hc).shares hd rfl rfl) objectType path path'

theorem BuildsAbreast.deferrals (hb : BuildsAbreast d build) (hd : d.Closed)
    {ps : List PendingDeferral} (hps : ∀ p ∈ ps, d.Has p.selectionSet) :
    RunsAbreast d s₀ t₀ r (fun r es es' => List.Forall₂ (DeferredRenumbered r) es es')
      (ps.mapM (buildDeferral build ⟨objectType, [], path, []⟩))
      (ps.mapM (buildDeferral build ⟨objectType, [], path', []⟩)) := by
  induction ps generalizing r with
  | nil => exact runsAbreast_pure .nil
  | cons p ps ih =>
      rw [List.forall_mem_cons] at hps
      rw [List.mapM_cons, List.mapM_cons]
      have hone : RunsAbreast d s₀ t₀ r (fun r e e' => DeferredRenumbered r e e')
          (buildDeferral build ⟨objectType, [], path, []⟩ p)
          (buildDeferral build ⟨objectType, [], path', []⟩ p) := by
        unfold buildDeferral
        exact (hb.runs hd hps.1.source).bind fun r' set set' _ hset =>
          runsAbreast_pure (.mk (d := p.finish set) hset)
      refine hone.bind fun r₁ e e' _ he => ?_
      refine (ih hps.2).bind fun r₂ es es' hgrows hes => ?_
      exact runsAbreast_pure (.cons (he.grow hgrows) hes)

/-- What is built for a type is stored under keys that are paired. -/
theorem BuildsAbreast.variant (hb : BuildsAbreast d build) (hd : d.Closed) {k k' : SelectionSetId}
    (hk : r.Key k k') {sources : List ClausedSet}
    (hsources : ∀ c ∈ sources, d.Has c.selectionSet) :
    RunsAbreast d s₀ t₀ r (fun _ _ _ => True)
      (compileVariant build k objectType sources path [])
      (compileVariant build k' objectType sources path' []) := by
  unfold compileVariant
  refine (runsAbreast_modify fun _ _ h => h.reach hk).bind fun r₁ _ _ hgrows₁ _ => ?_
  refine (hb.runs hd hsources).bind fun r₂ set set' hgrows₂ hset => ?_
  exact runsAbreast_modify fun _ _ h => h.store (hgrows₂.key (hgrows₁.key hk)) hset

end Loops

/-- The sub-selections of jobs in step are compiled abreast. -/
theorem BuildsAbreast.child {build : Build σ} (hb : BuildsAbreast input.document build)
    (hplain : input.Plain) {job job' : ChildJob} (hjob : JobsRenumbered r job job')
    (hnodes : ∀ o ∈ job.occurrences, input.document.syntaxArena.Resolves (.field o.node))
    {path path' : List PathSegment} :
    RunsAbreast input.document s₀ t₀ r (fun _ _ _ => True)
      (input.compileChildren build path [] job) (input.compileChildren build path' [] job') := by
  have hd := hplain.document.closed
  rw [hjob.eq]
  unfold compileChildren
  refine runsAbreast_get.bind fun r₁ s t hgrows₁ _ => ?_
  have hk := hgrows₁.key hjob.key
  refine (runsAbreast_modify fun _ _ h => h.reach hk).bind fun r₂ _ _ hgrows₂ _ => ?_
  -- the sub-selections are sets of the document, and the same in both views
  obtain ⟨hsources, hhas⟩ := sourcesOf_of_resolves hd hnodes (v := s.view input.document) rfl
  obtain ⟨hsources', -⟩ := sourcesOf_of_resolves hd hnodes (v := t.view input.document) rfl
  have heq : sourcesOf (t.view input.document) job.occurrences =
      sourcesOf (s.view input.document) job.occurrences := hsources'.trans hsources.symm
  have hbelow : [] ++ input.pipeline.below job.declaringType job.field.name = [] := by
    rw [hplain.pipeline]
    rfl
  dsimp only
  rw [heq, hbelow]
  refine runsAbreast_forM (R := Eq) (List.forall₂_refl _)
    fun r₃ type type' hgrows₃ htype => ?_
  obtain rfl := htype
  exact hb.variant hd (hgrows₃.key (hgrows₂.key hk)) hhas

/-- **Builds go abreast**, however deep they go. -/
theorem buildsAbreast (hplain : input.Plain) (fuel : Nat) :
    BuildsAbreast input.document (input.build fuel) := by
  have hindexed : input.Indexed := ⟨hplain.document, hplain.fragments⟩
  have hd := hplain.document.closed
  induction fuel with
  | zero => exact fun _ _ _ _ _ _ _ _ _ _ _ => together_throw _
  | succ fuel ih =>
      intro s₀ t₀ s t r sources habreast hsources objectType path path'
      rw [CompileInput.build, CompileInput.build]
      refine (together_collect hindexed habreast hsources objectType path path').bind
        fun c s₁ c' t₁ hcollected => ?_
      obtain ⟨habreast₁, hc, hgathered⟩ := hcollected
      rw [hc]
      have hdrafts := hgathered.drafts objectType
      -- all that comes after collecting goes abreast from wherever collecting has led
      refine (show RunsAbreast input.document s₀ t₀ r
        (fun r set set' => SelectionSet.Renumbered r set set') _ _ from ?_) habreast₁
      refine (ih.deferrals hd hgathered.deferrals).bind fun r₂ es es' _ hes => ?_
      rw [optimize_nil, optimize_nil, pure_bind, pure_bind]
      have hfinish : RunsAbreast input.document s₀ t₀ r₂ _ (input.finish _ _) (input.finish _ _) :=
        (runsAbreast_finish (fun e he => (hdrafts e he).2) (liveOccurrences c)).and_left
          finished_of_runs
      refine hfinish.bind fun r₃ p p' hgrows₃ hboth => ?_
      obtain ⟨⟨hselections, hjobs⟩, hfinished⟩ := hboth
      -- the occurrences of all jobs are nodes of the document
      have hnodes : ∀ job ∈ p.2, ∀ o ∈ job.occurrences,
          input.document.syntaxArena.Resolves (.field o.node) := fun job hjob =>
        (hfinished.job_nodes hgathered.live (fun e he => (hdrafts e he).1) job hjob).2
      refine (runsAbreast_forM ((List.forall₂_and_left _ _).2 ⟨hnodes, hjobs⟩)
        fun r₄ job job' hgrows₄ hboth =>
          ih.child hplain (hboth.2.grow hgrows₄) hboth.1).bind fun r₅ _ _ hgrows₅ _ => ?_
      refine runsAbreast_pure (.mk ?_ ?_)
      · exact hselections.imp fun _ _ h => h.grow hgrows₅
      · exact hes.imp fun _ _ h => h.grow (hgrows₃.trans hgrows₅)

/-! ## More fuel -/

/-- What a build comes to it also comes to if it may go deeper. -/
theorem runs_build_of_le {n m : Nat} (hle : n ≤ m) {task : BuildTask σ} {s s' : CompileState σ}
    {set : SelectionSet} (h : Runs (perform (input.build n) task) s set s') :
    Runs (perform (input.build m) task) s set s' := by
  induction n generalizing m task s set s' with
  | zero => exact absurd h not_runs_throw
  | succ n ih =>
      obtain ⟨m, rfl⟩ := Nat.exists_eq_add_of_le' (Nat.le_of_add_left_le hle)
      have hle : n ≤ m := Nat.le_of_succ_le_succ hle
      obtain ⟨s₁, s₂, s₃, s₄, c, deferred, m', selections, jobs, hprepares, hjobs, hset⟩ :=
        runs_build_succ.1 h
      refine runs_build_succ.2 ⟨s₁, s₂, s₃, s₄, c, deferred, m', selections, jobs,
        ⟨hprepares.collect, ?_, hprepares.optimize, hprepares.finish⟩, ?_, hset⟩
      · refine runs_mapM_imp (fun {d t e t'} hd => ?_) hprepares.deferrals
        obtain ⟨sub, t₁, hsub, hfinish⟩ := runs_bind.1 hd
        exact runs_bind.2 ⟨sub, t₁, ih hle hsub, hfinish⟩
      · refine runs_forM_imp (fun {job t t'} hjob => ?_) hjobs
        rw [runs_compileChildren] at hjob ⊢
        refine runs_forM_imp (fun {type u u'} htype => ?_) hjob
        obtain ⟨sub, u₁, hsub, hstore⟩ := runs_compileVariant.1 htype
        exact runs_compileVariant.2 ⟨sub, u₁, ih hle hsub, hstore⟩

/-! ## Selection sets of plans -/

/-- A build for the type and the sources, without optimizers, has left the selection set, and the
plan has kept what it left. -/
def BuiltFor (input : CompileInput σ) (p : Plan) (objectType : ObjectType)
    (sources : List ClausedSet) (set : SelectionSet) : Prop :=
  ∃ fuel path s s', input.Remains p fuel ⟨objectType, sources, path, []⟩ s set s'

theorem Sound.coherent {call : BuildCall σ} (h : input.Sound call) :
    call.state.Coherent input.document := by
  obtain ⟨pending, loose, howned⟩ := h.owned
  refine howned.coherent ?_
  have hle := h.grows.extends_.sets
  exact hle

/-- What a build without optimizers has claimed it has also stored, and the plan has kept it. -/
theorem Remains.exists_variants (hschema : input.schema.Built) (hplain : input.Plain) {p : Plan}
    {n : Nat} {task : BuildTask σ} {s s' : CompileState σ} {set : SelectionSet}
    (h : input.Remains p n task s set s') {k : SelectionSetId} (hk : k ∈ s'.claimed)
    (hnew : k ∉ s.claimed) : ∃ v, s'.variants.get? k = some v ∧ p.variants.get? k = some v := by
  have hlawful : input.pipeline.Lawful := hplain.pipeline ▸ Pipeline.passive_empty.lawful
  obtain ⟨pending, loose, howned⟩ := h.sound.owned
  obtain ⟨howned', -⟩ := builds hschema.wellNamed hlawful n h.sound.proper howned h.runs
  -- the key is not pending, since it was not claimed before
  have hkeys := howned.keys k
  have hkeys' := howned'.keys k
  rw [List.count_eq_zero_of_not_mem hnew] at hkeys
  have hpos := List.count_pos_iff.2 hk
  have hmem : k ∈ s'.variants.keys := List.count_pos_iff.1 (by omega)
  obtain ⟨v, hv⟩ := OrderedMap.mem_keys_iff.1 hmem
  refine ⟨v, hv, h.agrees hv fun hold => hnew ?_⟩
  exact h.sound.coherent.reached hold

/-- Selection sets that were built for the same type and the same sources are renumbered, and so
is what the plans have below them. -/
theorem exists_renumbering (hschema : input.schema.Built) (hplain : input.Plain) {p p' : Plan}
    {objectType : ObjectType} {sources : List ClausedSet} {set set' : SelectionSet}
    (hsources : ∀ c ∈ sources, input.document.Has c.selectionSet)
    (h : input.BuiltFor p objectType sources set)
    (h' : input.BuiltFor p' objectType sources set') :
    ∃ r : Renumbering, set.Renumbered r set' ∧ VariantMap.Renumbered r p.variants p'.variants := by
  obtain ⟨n, path, s, s', hremains⟩ := h
  obtain ⟨n', path', t, t', hremains'⟩ := h'
  have hcoherent : s.Coherent input.document := hremains.sound.coherent
  have hcoherent' : t.Coherent input.document := hremains'.sound.coherent
  have hd := hplain.document.closed
  -- with enough fuel for both, the two builds go abreast
  have hruns := runs_build_of_le (Nat.le_max_left n n') hremains.runs
  have hruns' := runs_build_of_le (Nat.le_max_right n n') hremains'.runs
  have hbuild := buildsAbreast hplain (max n n') (CompileState.abreast_start hcoherent hcoherent')
    (fun c hc => (hsources c hc).shares hd rfl rfl) objectType path path'
  obtain ⟨r, -, habreast, hset⟩ := hbuild.of_runs hruns hruns'
  refine ⟨r, hset, fun k k' hk => ?_⟩
  -- what was claimed on the way is stored, and both plans have kept it
  obtain ⟨hclaimed, hclaimed'⟩ := habreast.mem_claimed hk
  obtain ⟨hnew, hnew'⟩ := habreast.fresh hk
  obtain ⟨v, hv, hpv⟩ := hremains.exists_variants hschema hplain hclaimed hnew
  obtain ⟨v', hv', hpv'⟩ := hremains'.exists_variants hschema hplain hclaimed' hnew'
  have hvariants := habreast.variants hk
  rwa [hv, hv', ← hpv, ← hpv'] at hvariants

/-- Below a task for sets of the document, without optimizers, there are only such tasks. -/
theorem Plain.handsDown (hplain : input.Plain) (p : Plan) : input.HandsDown p input.PlainTask := by
  have hindexed := hplain.indexed
  have hd := hplain.document.closed
  have hgathered : ∀ {fuel task s s₁ s₂ s₃ s₄ s' c deferred m selections jobs},
      input.Level p fuel task s s₁ s₂ s₃ s₄ s' c deferred m selections jobs →
      input.PlainTask task → Gathered input.document c := fun hlevel htask =>
    gathered_of_runs hindexed (fun c hc => hd.resolves_selectionsOf rfl (htask.has c hc))
      hlevel.prepares.collect
  constructor
  · intro _ _ _ _ _ _ _ _ _ _ _ _ _ hlevel htask d hmem
    exact htask.deferral ((hgathered hlevel htask).deferrals d hmem)
  · intro fuel task s s₁ s₂ s₃ s₄ s' c deferred m selections jobs hlevel htask job hjob s₅ t
    have hc := hgathered hlevel htask
    -- the drafts are finished as they were collected
    have hoptimize := hlevel.prepares.optimize
    rw [htask.optimizers, optimize_nil] at hoptimize
    obtain ⟨hm, -⟩ := runs_pure.1 hoptimize
    have hnodes : ∀ o ∈ job.occurrences, input.document.syntaxArena.Resolves (.field o.node) :=
      ((finished_of_runs hlevel.prepares.finish).job_nodes hc.live
        (fun e he => (hc.drafts task.objectType e (hm ▸ he)).1) job hjob).2
    refine ⟨(sourcesOf_of_resolves hd hnodes rfl).2, ?_⟩
    rw [childTask, htask.optimizers, hplain.pipeline]
    rfl

/-- Every part of every selection set of a plan was built for its type and for sets of the
document. -/
theorem exists_builtFor (hschema : input.schema.Built) (hplain : input.Plain) {bound : Nat}
    {name : Option String} {memory memory' : σ} {p : Plan}
    (h : input.compileWithin bound name memory = (.ok p, memory')) {key : SelectionSetId}
    {type : String} {set : SelectionSet} (hset : p.selectionSet key type = .ok set)
    {part : SelectionSet} (hpart : part ∈ set.parts) :
    ∃ sources, (∀ c ∈ sources, input.document.Has c.selectionSet) ∧
      input.BuiltFor p part.objectType sources part := by
  have hlawful : input.pipeline.Lawful := hplain.pipeline ▸ Pipeline.passive_empty.lawful
  have hgeneral : input.pipeline.general = [] := congrArg Pipeline.general hplain.pipeline
  obtain ⟨n, task, t, u, hremains, htask⟩ :=
    exists_remains_of_handsDown hschema hplain.document hlawful (hplain.handsDown p)
      (hplain.indexed.rootTask hgeneral) h hset hpart
  obtain ⟨_, _, _, _, _, _, _, _, _, _, _, rfl⟩ := hremains.level
  refine ⟨task.sources, htask.has, n, task.path, t, u, ?_⟩
  have htask' : (⟨task.objectType, task.sources, task.path, []⟩ : BuildTask σ) = task := by
    rw [← htask.optimizers]
  rwa [htask']

/-- **What is built for a type and some sources does not depend on what was compiled before.**
Compiling without optimizers starts all its builds in coherent states. Started in any two of these,
at whatever paths, builds for the same type whose sources stand for the same fail with the same
error, or they make sets that are the same but for the ids of selections and for keys, which are
paired one to one, and so is everything that is stored under these keys. Therefore it does not
matter where in a plan a selection set of the document is reached: what was built there for a type
and under some clauses prints the same lines and is executed alike, whatever the variables are. All
selection sets of a plan were built in this way. -/
theorem build_of_history (hschema : input.schema.Built) (hplain : input.Plain) :
    (∀ {bound name memory jobs call}, input.Performs bound name memory jobs call →
      call.state.Coherent input.document) ∧
    (∀ {s t : CompileState σ}, s.Coherent input.document → t.Coherent input.document →
      ∀ {sources}, (∀ c ∈ sources, (s.view input.document).Shares input.document
        (t.view input.document) c.selectionSet) →
      ∀ objectType path path' fuel,
        Together (fun set s' set' t' => ∃ r : Renumbering, r.first = s.nextId ∧
            r.first' = t.nextId ∧ Abreast input.document s t r s' t' ∧ set.Renumbered r set')
          (input.build fuel objectType sources path [])
          (input.build fuel objectType sources path' []) s t) ∧
    (∀ {p p' objectType sources set set'},
      (∀ c ∈ sources, input.document.Has c.selectionSet) →
      input.BuiltFor p objectType sources set → input.BuiltFor p' objectType sources set' →
      (∀ fuel depth, set'.lines (p'.variantLines fuel) depth =
        set.lines (p.variantLines fuel) depth) ∧
      ∀ vars n, p'.executed vars n set' = p.executed vars n set) ∧
    ∀ {bound name memory memory' p}, input.compileWithin bound name memory = (.ok p, memory') →
      ∀ {key type set}, p.selectionSet key type = .ok set → ∀ part ∈ set.parts,
        ∃ sources, (∀ c ∈ sources, input.document.Has c.selectionSet) ∧
          input.BuiltFor p part.objectType sources part := by
  refine ⟨fun {bound name memory jobs call} hperforms => ?_,
    fun {s t} hs ht {sources} hshares objectType path path' fuel => ?_,
    fun {p p' objectType sources set set'} hsources h h' => ?_,
    fun {bound name memory memory' p} h {key type set} hset part hpart =>
      exists_builtFor hschema hplain h hset hpart⟩
  · have hlawful : input.pipeline.Lawful := hplain.pipeline ▸ Pipeline.passive_empty.lawful
    exact (hperforms.sound hschema hplain.document hlawful).coherent
  · have hbuild := buildsAbreast hplain fuel (CompileState.abreast_start hs ht) hshares objectType
      path path'
    refine hbuild.mono fun set s' set' t' _ ⟨r, hgrows, habreast, hset⟩ => ?_
    exact ⟨r, hgrows.first, hgrows.first', habreast, hset⟩
  · obtain ⟨r, hset, hvariants⟩ := exists_renumbering hschema hplain hsources h h'
    exact ⟨hset.print_eq hvariants, hset.executed_eq hvariants⟩

end CompileInput

namespace Linked

def bare : CompileInput Journal := input.unoptimized

theorem bare_plain : bare.Plain := ⟨document_built, fragments_eq, rfl⟩

/-- Whether the task is for sets of the document, and the same can be built once more, with other
keys. -/
def rebuilds (task : BuildTask Journal) (_ : CompileState Journal) (set : SelectionSet)
    (s' : CompileState Journal) : Bool :=
  task.sources.all (fun c => (document.syntaxArena.selectionSet? c.selectionSet).isSome) &&
    match (CompileInput.perform (bare.build 10) task).run.run s' with
    | (.ok set', _) => set'.childKeys ≠ set.childKeys
    | (.error _, _) => false

theorem rebuilds_root : bare.rootPasses 10 none [] rebuilds = true := by decide +kernel

theorem build_of_history_linked : ∃ task s set s' set' t',
    Runs (CompileInput.perform (bare.build 10) task) s set s' ∧
      Runs (CompileInput.perform (bare.build 10) task) s' set' t' ∧
      set'.childKeys ≠ set.childKeys ∧ s.Coherent document ∧ s'.Coherent document ∧
      (∃ r : Renumbering, r.first = s.nextId ∧ r.first' = s'.nextId ∧
        Abreast document s s' r s' t' ∧ set.Renumbered r set') ∧
      ∃ p, bare.BuiltFor p task.objectType task.sources set ∧
        bare.BuiltFor p task.objectType task.sources set' ∧
        (∀ fuel depth, set'.lines (p.variantLines fuel) depth =
          set.lines (p.variantLines fuel) depth) ∧
        ∀ vars n, p.executed vars n set' = p.executed vars n set := by
  obtain ⟨hcoherent, htogether, hplans, -⟩ :=
    CompileInput.build_of_history schema_built bare_plain
  obtain ⟨task, s, set, s', hperforms, hruns, htest⟩ := CompileInput.exists_root rebuilds_root
  obtain ⟨p, memory, -⟩ := exists_eq_ok (x := bare.compileWithin 10 none []) (by decide +kernel)
  obtain ⟨hall, hagain⟩ := Bool.and_eq_true_iff.1 htest
  have hsources : ∀ c ∈ task.sources, document.Has c.selectionSet := fun c hc =>
    Option.isSome_iff_exists.1 (List.all_eq_true.1 hall c hc)
  have hoptimizers : task.optimizers = [] := hperforms.task_eq.2
  have hlawful : bare.pipeline.Lawful := Pipeline.passive_empty.lawful
  have hsound := hperforms.sound schema_built document_built hlawful
  obtain ⟨objectType, sources, path, optimizers⟩ := task
  obtain rfl : optimizers = [] := hoptimizers
  split at hagain
  · rename_i set' t' hruns'
    have hkeys : set'.childKeys ≠ set.childKeys := of_decide_eq_true hagain
    -- the second build starts where the first one has led
    obtain ⟨pending, loose, howned⟩ := hsound.owned
    have hbuilds : bare.Builds (bare.build 10) _ :=
      CompileInput.builds schema_built.wellNamed hlawful 10
    obtain ⟨howned', hkept, -⟩ := hbuilds hsound.proper howned hruns
    obtain ⟨-, hkept', -⟩ := hbuilds hsound.proper howned' hruns'
    have hsound' : bare.Sound ⟨10, ⟨objectType, sources, path, []⟩, s'⟩ :=
      ⟨hsound.proper, ⟨_, _, howned'⟩, hsound.grows.trans hkept.synthetic⟩
    have hs : s.Coherent document := hcoherent hperforms
    have hs' : s'.Coherent document := hsound'.coherent
    let q : Plan := { p with synthetic := t'.synthetic, variants := t'.variants }
    have hbuilt : bare.BuiltFor q objectType sources set :=
      ⟨10, path, s, s', hsound, hruns, fun _ _ hv _ => hkept'.variants hv, hkept'.synthetic⟩
    have hbuilt' : bare.BuiltFor q objectType sources set' :=
      ⟨10, path, s', t', hsound', hruns', fun _ _ hv _ => hv, .refl _⟩
    have hshares : ∀ c ∈ sources, (s.view document).Shares document (s'.view document)
        c.selectionSet := fun c hc => (hsources c hc).shares document_built.closed rfl rfl
    have hbuild := htogether hs hs' hshares objectType path path 10
    exact ⟨_, s, set, s', set', t', hruns, hruns', hkeys, hs, hs', hbuild.of_runs hruns hruns', q,
      hbuilt, hbuilt', hplans hsources hbuilt hbuilt'⟩
  · cases hagain

end Linked

end QueryPlan
