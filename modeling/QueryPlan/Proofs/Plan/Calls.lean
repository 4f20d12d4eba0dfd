import QueryPlan.Proofs.Plan.Made

/-!
# The builds of a compilation

A compilation builds the root of its operation, and a build performs others: one for each fragment
that is deferred, and one for each type that the field of a selection can have. `Performs` gives
every build of a compilation with the state it is started in, and with the jobs that lead down to
it, whether or not the compilation comes to an end. The path of a build and the optimizers that are
active there are read off those jobs; and of every job of a build that comes to an end, the builds
below it have left what is stored under its key.
-/

set_option autoImplicit false

namespace QueryPlan

variable {σ : Type}

/-- A build that is performed: how deep it may go, what it is for, and where it is started. -/
structure BuildCall (σ : Type) where
  fuel : Nat
  task : BuildTask σ
  state : CompileState σ

/-- The step that a job goes down. -/
def ChildJob.segment (job : ChildJob) : PathSegment := ⟨job.field, job.responseKey⟩

namespace CompileInput

variable {input : CompileInput σ}

/-! ## From one build to the next -/

/-- One build performs another for a fragment that it defers, after those for the fragments
before. -/
inductive Defers (input : CompileInput σ) : BuildCall σ → BuildCall σ → Prop
  | mk {fuel : Nat} {task : BuildTask σ} {s s₁ s₂ : CompileState σ} {c : Collected}
      {before after : List PendingDeferral} {d : PendingDeferral}
      {built : List (DeferredFragment SelectionSet)}
      (collect : Runs (input.collect (input.contextOf task) task.optimizers task.sources) s c s₁)
      (deferrals : c.deferrals = before ++ d :: after)
      (done : Runs (before.mapM (buildDeferral (input.build fuel) task)) s₁ built s₂) :
      Defers input ⟨fuel + 1, task, s⟩ ⟨fuel, task.deferral d, s₂⟩

/-- One build performs another for a job of its own and a type, after those for the jobs and the
types before. -/
inductive Descends (input : CompileInput σ) : BuildCall σ → ChildJob → BuildCall σ → Prop
  | mk {fuel : Nat} {task : BuildTask σ} {s s₁ s₂ s₃ s₄ s₅ s₆ : CompileState σ} {c : Collected}
      {deferred : List (DeferredFragment SelectionSet)} {m : SelectionMap}
      {selections : List Selection} {before after : List ChildJob} {job : ChildJob}
      {earlier later : List ObjectType} {t : ObjectType}
      (prepares : input.Prepares (input.build fuel) task s s₁ s₂ s₃ s₄ c deferred m selections
        (before ++ job :: after))
      (done : Runs (before.forM (input.compileChildren (input.build fuel) task.path
        task.optimizers)) s₄ ⟨⟩ s₅)
      (types : input.schema.possibleTypes job.field.type.innermost = earlier ++ t :: later)
      (stored : Runs (input.compileTypes (input.build fuel) task job
        (sourcesOf (s₅.view input.document) job.occurrences) earlier) (s₅.reach job.key) ⟨⟩ s₆) :
      Descends input ⟨fuel + 1, task, s⟩ job
        ⟨fuel, input.childTask task (sourcesOf (s₅.view input.document) job.occurrences) job t,
          s₆.reach job.key⟩

/-- The builds that compiling an operation performs, each with the jobs that lead down to it. -/
inductive Performs (input : CompileInput σ) (bound : Nat) (name : Option String) (memory : σ) :
    List ChildJob → BuildCall σ → Prop
  | root {operation : OperationNode} {rootType : ObjectType}
      (operation_eq : input.document.operation name = .ok operation)
      (rootType_eq : input.schema.rootType? operation.kind = some rootType) :
      Performs input bound name memory []
        ⟨bound, input.rootTask operation.selectionSet rootType,
          (input.start operation.selectionSet memory).reach operation.selectionSet⟩
  | deferred {jobs : List ChildJob} {call call' : BuildCall σ}
      (above : Performs input bound name memory jobs call) (defers : input.Defers call call') :
      Performs input bound name memory jobs call'
  | child {jobs : List ChildJob} {call call' : BuildCall σ} {job : ChildJob}
      (above : Performs input bound name memory jobs call)
      (descends : input.Descends call job call') :
      Performs input bound name memory (jobs ++ [job]) call'

variable {bound : Nat} {name : Option String} {memory : σ} {jobs : List ChildJob}
  {call call' : BuildCall σ} {job : ChildJob}

/-! ## What a build is told -/

theorem Defers.task_eq (h : input.Defers call call') :
    call'.task.path = call.task.path ∧ call'.task.optimizers = call.task.optimizers := by
  cases h
  exact ⟨rfl, rfl⟩

theorem Descends.task_eq (h : input.Descends call job call') :
    call'.task.path = call.task.path ++ [job.segment] ∧
      call'.task.optimizers =
        call.task.optimizers ++ input.pipeline.below job.declaringType job.field.name := by
  cases h
  exact ⟨rfl, rfl⟩

/-- The path of a build has one step for each job above it, and its optimizers are those for all
selection sets and, job by job, those that are registered for its field. -/
theorem Performs.task_eq (h : input.Performs bound name memory jobs call) :
    call.task.path = jobs.map ChildJob.segment ∧
      call.task.optimizers = input.pipeline.general ++
        jobs.flatMap fun job => input.pipeline.below job.declaringType job.field.name := by
  induction h with
  | root => exact ⟨rfl, (List.append_nil _).symm⟩
  | deferred _ defers ih =>
      rw [defers.task_eq.1, defers.task_eq.2]
      exact ih
  | child _ descends ih =>
      rw [descends.task_eq.1, descends.task_eq.2, ih.1, ih.2, List.map_append, List.flatMap_append,
        List.flatMap_singleton, List.append_assoc]
      exact ⟨rfl, rfl⟩

/-! ## Every build is started properly -/

/-- A build that is for a proper task and starts where every key has an owner. -/
structure Sound (input : CompileInput σ) (call : BuildCall σ) : Prop where
  proper : input.Proper call.task
  owned : ∃ pending loose, call.state.Owned input.document pending loose
  grows : input.document.syntaxArena.syntheticAfter.Grows call.state.synthetic

theorem Sound.deferred (hschema : input.schema.WellNamed) (hlawful : input.pipeline.Lawful)
    (h : input.Sound call) (hdefers : input.Defers call call') : input.Sound call' := by
  obtain ⟨hproper, ⟨pending, loose, howned⟩, hgrows⟩ := h
  cases hdefers with
  | mk hcollect hdeferrals hdone =>
      have hrevised := revised_collect hcollect
      obtain ⟨howned₂, hkept, -⟩ :=
        (builds hschema hlawful _).deferrals hproper (howned.revised hrevised) hdone
      exact ⟨⟨hproper.objectType, hproper.optimizers⟩, ⟨pending, _, howned₂⟩,
        (hgrows.trans hrevised.grows).trans hkept.synthetic⟩

theorem Sound.child (hschema : input.schema.WellNamed) (hlawful : input.pipeline.Lawful)
    (h : input.Sound call) (hdescends : input.Descends call job call') : input.Sound call' := by
  obtain ⟨hproper, ⟨pending, loose, howned⟩, hgrows⟩ := h
  cases hdescends with
  | @mk fuel task s s₁ s₂ s₃ s₄ s₅ s₆ c deferred m selections before after _ earlier later t
      hprepares hdone htypes hstored =>
      have hb : input.Builds (input.build fuel) _ := builds hschema hlawful fuel
      have hproper' := hproper.child hschema hlawful
        (sourcesOf (s₅.view input.document) job.occurrences) job
      have hsub : ∀ t' ∈ earlier, t' ∈ input.schema.possibleTypes job.field.type.innermost :=
        fun t' ht' => htypes ▸ List.mem_append_left _ ht'
      have hnodup := hschema.possibleTypes_nodup job.field.type.innermost
      rw [htypes, List.map_append] at hnodup
      -- the jobs before are done, and the key of this one is reached
      have hprepared := hprepares.prepared hschema hb hproper howned
      have howned₄ := hprepared.owned₄
      rw [List.map_append, List.append_assoc] at howned₄
      obtain ⟨howned₅, hkept₅, -⟩ := hb.children hschema hlawful hproper howned₄ hdone
      obtain ⟨hreached, hkept, hv⟩ := howned₅.reach
      obtain ⟨howned₆, hkept₆, -, v', hv', -, -⟩ :=
        hb.variants (fun t' ht' => hproper' t' (hsub t' ht')) (List.nodup_append'.1 hnodup).1
          (fun _ _ => List.not_mem_nil) hv hreached hstored
      have hreach : s₆.reach job.key = s₆ :=
        CompileState.reach_of_mem (OrderedMap.mem_keys_iff.2 ⟨v', hv'⟩)
      refine ⟨hproper' t (htypes ▸ List.mem_append_right _ List.mem_cons_self),
        ⟨_, _, hreach.symm ▸ howned₆⟩, hgrows.trans (hprepared.kept.synthetic.trans ?_)⟩
      exact (hkept₅.synthetic.trans hkept.synthetic).trans (hreach.symm ▸ hkept₆.synthetic)

/-- Wherever a compilation has come to, the builds that it performs are sound. -/
theorem Performs.sound (hschema : input.schema.Built) (hdocument : input.document.Built)
    (hlawful : input.pipeline.Lawful) (h : input.Performs bound name memory jobs call) :
    input.Sound call := by
  have hnamed := hschema.wellNamed
  induction h with
  | @root operation rootType hoperation hrootType =>
      have hroot := hdocument.closed.operation operation (Document.operation_mem hoperation)
      obtain ⟨howned, hkept, -⟩ := (owned_start hdocument.closed memory hroot).reach
      exact ⟨⟨hnamed.objectType?_of_rootType hrootType, hlawful.general⟩, ⟨[], [_], howned⟩,
        hkept.synthetic⟩
  | deferred _ defers ih => exact ih.deferred hnamed hlawful defers
  | child _ descends ih => exact ih.child hnamed hlawful descends

/-! ## What the builds below leave -/

/-- Of some types in turn, each is built where those before it have left the state, and the result
is stored for it; nothing else that stands under other keys is touched. -/
theorem exists_variant {build : Build σ} {made : VariantMap → BuildTask σ → SelectionSet → Prop}
    (hb : input.Builds build made) {task : BuildTask σ} {sources : List ClausedSet}
    {earlier later : List ObjectType} {t : ObjectType} {pending loose : List SelectionSetId}
    {s s' : CompileState σ} {v : SelectionVariants}
    (hproper : ∀ t' ∈ earlier ++ t :: later, input.Proper (input.childTask task sources job t'))
    (hnodup : ((earlier ++ t :: later).map (·.name)).Nodup) (hempty : v.sets = .empty)
    (hv : s.variants.get? job.key = some v) (howned : s.Owned input.document pending loose)
    (h : Runs (input.compileTypes build task job sources (earlier ++ t :: later)) s ⟨⟩ s') :
    ∃ s₁ set s₂ v', Runs (input.compileTypes build task job sources earlier) s ⟨⟩ s₁ ∧
      Runs (perform build (input.childTask task sources job t)) (s₁.reach job.key) set s₂ ∧
      s'.variants.get? job.key = some v' ∧ v'.sets.get? t.name = some set ∧
      job.key ∈ (s₁.reach job.key).variants.keys ∧ s.KeptBut job.key (s₁.reach job.key) ∧
      s₂.KeptBut job.key s' := by
  rw [List.map_append, List.nodup_append', List.map_cons, List.nodup_cons,
    List.disjoint_cons_right] at hnodup
  obtain ⟨hearlier, ⟨ht, hlater⟩, htnew, hdisjoint⟩ := hnodup
  obtain ⟨s₁, hbefore, h⟩ := runs_forM_append.1 h
  obtain ⟨s₃, hone, hafter⟩ := runs_forM_cons.1 h
  -- the types before have left what is stored for them
  obtain ⟨howned₁, hkept₁, es, v₁, hv₁, hes, hmade₁⟩ := hb.variants
    (fun t' ht' => hproper t' (List.mem_append_left _ ht')) hearlier
    (fun _ _ => by simp [hempty]) hv howned hbefore
  have hkeys : v₁.sets.keys = earlier.map (·.name) := by
    rw [OrderedMap.keys, hes, hempty]
    exact (map_eq_of_forall₂ (hmade₁ _ fun _ _ hw _ => hw) fun _ _ he => he.1.symm).symm
  have hkey : job.key ∈ s₁.variants.keys := OrderedMap.mem_keys_iff.2 ⟨v₁, hv₁⟩
  have hreach := CompileState.reach_of_mem hkey
  have hproper' := hproper t (List.mem_append_right _ List.mem_cons_self)
  obtain ⟨howned₃, -, -⟩ := hb.variant hproper' (hkeys ▸ htnew) (hreach.symm ▸ hv₁)
    (hreach.symm ▸ howned₁) hone
  -- the result for this type is stored, and not touched by the types after it
  obtain ⟨set, s₂, hset, rfl⟩ := runs_compileVariant.1 hone
  obtain ⟨-, hkept₂, htype, -⟩ := hb hproper' (hreach.symm ▸ howned₁) hset
  have hname : set.objectType.name = t.name := congrArg ObjectType.name htype
  have hv₃ := CompileState.get?_store_self set (hkept₂.variants (hreach.symm ▸ hv₁))
  rw [hname] at hv₃
  have hnew : ∀ t' ∈ later, t'.name ∉ (v₁.sets.insert t.name set).keys := by
    intro t' ht' hmem
    rcases OrderedMap.mem_keys_insert.1 hmem with heq | hmem
    · exact ht (heq ▸ List.mem_map_of_mem ht')
    · exact hdisjoint (hkeys ▸ hmem) (List.mem_map_of_mem ht')
  obtain ⟨-, hkept₃, es', v', hv', hes', -⟩ := hb.variants
    (fun t' ht' => hproper t' (List.mem_append_right _ (List.mem_cons_of_mem _ ht'))) hlater hnew
    hv₃ howned₃ hafter
  refine ⟨s₁, set, s₂, v', hbefore, hset, hv', OrderedMap.get?_eq_some_iff.2 ?_,
    hreach.symm ▸ hkey, hreach.symm ▸ hkept₁,
    (CompileState.keptBut_store s₂ job.key set).trans hkept₃⟩
  rw [hes']
  exact List.mem_append_left _
    (OrderedMap.get?_eq_some_iff.1 (OrderedMap.get?_insert_self v₁.sets t.name set))

/-- Under the key of a job of a build stands, for every type that its field can have, what the
build below has left for that type. -/
theorem exists_descends (hschema : input.schema.WellNamed) (hlawful : input.pipeline.Lawful)
    {fuel : Nat} {task : BuildTask σ} {s s₁ s₂ s₃ s₄ s' : CompileState σ} {c : Collected}
    {deferred : List (DeferredFragment SelectionSet)} {m : SelectionMap}
    {selections : List Selection} {jobs : List ChildJob} (hsound : input.Sound ⟨fuel + 1, task, s⟩)
    (hprepares : input.Prepares (input.build fuel) task s s₁ s₂ s₃ s₄ c deferred m selections jobs)
    (hjobs : Runs (jobs.forM (input.compileChildren (input.build fuel) task.path task.optimizers))
      s₄ ⟨⟩ s') (hjob : job ∈ jobs) :
    ∃ s₅ v, s₄.Kept s₅ ∧ s₅.Kept s' ∧ s'.variants.get? job.key = some v ∧
      v.sets.keys = (input.schema.possibleTypes job.field.type.innermost).map (·.name) ∧
      ∀ t ∈ input.schema.possibleTypes job.field.type.innermost, ∃ below set u,
        v.sets.get? t.name = some set ∧
        input.Descends ⟨fuel + 1, task, s⟩ job below ∧ below.fuel = fuel ∧
        below.task =
          input.childTask task (sourcesOf (s₅.view input.document) job.occurrences) job t ∧
        Runs (perform (input.build fuel) below.task) below.state set u ∧
        job.key ∈ below.state.variants.keys ∧ s₅.KeptBut job.key below.state ∧
        u.KeptBut job.key s' := by
  obtain ⟨hproper, ⟨pending, loose, howned⟩, -⟩ := hsound
  have hb : input.Builds (input.build fuel) _ := builds hschema hlawful fuel
  obtain ⟨before, after, rfl⟩ := List.append_of_mem hjob
  have howned₄ := (hprepares.prepared hschema hb hproper howned).owned₄
  rw [List.map_append, List.append_assoc] at howned₄
  -- the jobs before this one, the job itself, and the jobs after it
  obtain ⟨s₅, hdone, hrest⟩ := runs_forM_append.1 hjobs
  obtain ⟨s₆, hone, hafter⟩ := runs_forM_cons.1 hrest
  obtain ⟨howned₅, hkept₅, -⟩ := hb.children hschema hlawful hproper howned₄ hdone
  obtain ⟨howned₆, hkept₆, hmade⟩ := hb.child hschema hlawful hproper howned₅ hone
  obtain ⟨-, hkept', -⟩ := hb.children hschema hlawful hproper howned₆ hafter
  obtain ⟨v, _, -, hv, hsets⟩ := hmade s₆.variants fun _ _ hw _ => hw
  have hkeys : v.sets.keys =
      (input.schema.possibleTypes job.field.type.innermost).map (·.name) :=
    (map_eq_of_forall₂ hsets fun _ _ he => he.1.symm).symm
  refine ⟨s₅, v, hkept₅, hkept₆.trans hkept', hkept'.variants hv, hkeys, fun t ht => ?_⟩
  have hproper' := hproper.child hschema hlawful
    (sourcesOf (s₅.view input.document) job.occurrences) job
  have hnodup := hschema.possibleTypes_nodup job.field.type.innermost
  rw [runs_compileChildren] at hone
  obtain ⟨howned₅', hreached, hempty⟩ := howned₅.reach
  obtain ⟨earlier, later, htypes⟩ := List.append_of_mem ht
  rw [htypes] at hproper' hnodup hone
  obtain ⟨s₇, set, u, v', hstored, hset, hv', hget, hkey, hbefore, hrest⟩ :=
    exists_variant hb hproper' hnodup rfl hempty howned₅' hone
  rw [hv, Option.some_inj] at hv'
  exact ⟨_, set, u, hv' ▸ hget, .mk hprepares hdone htypes hstored, rfl, rfl, hset, hkey,
    hreached.but.trans hbefore, hrest.trans hkept'.but⟩

/-- What is stored below a selection for a type. -/
def below? (s : CompileState σ) (sel : Selection) (t : ObjectType) : Option SelectionSet :=
  (sel.selectionSet.bind s.variants.get?).bind fun v => v.sets.get? t.name

/-- Below every selection with a key, a build is performed for each type that its field can have,
and what it has left is stored. -/
theorem Performs.exists_child (hschema : input.schema.Built) (hdocument : input.document.Built)
    (hlawful : input.pipeline.Lawful) {fuel : Nat} {task : BuildTask σ} {s s' : CompileState σ}
    {set : SelectionSet} (h : input.Performs bound name memory jobs ⟨fuel + 1, task, s⟩)
    (hrun : Runs (perform (input.build (fuel + 1)) task) s set s') {sel : Selection}
    (hsel : sel ∈ set.selections) {key : SelectionSetId} (hkey : sel.selectionSet = some key)
    {t : ObjectType} (ht : t ∈ input.schema.possibleTypes sel.field.type.innermost) :
    ∃ job call below u, job.declaringType = sel.declaringType ∧ job.field = sel.field ∧
      input.Performs bound name memory (jobs ++ [job]) call ∧ call.fuel = fuel ∧
      call.task.objectType = t ∧ Runs (perform (input.build fuel) call.task) call.state below u ∧
      below? s' sel t = some below := by
  obtain ⟨s₁, s₂, s₃, s₄, c, deferred, m, selections, jobs', hprepares, hjobs, rfl⟩ :=
    runs_build_succ.1 hrun
  obtain ⟨job, hjob, rfl, htype, hfield, -⟩ :=
    (finished_of_runs hprepares.finish).job hsel hkey
  obtain ⟨s₅, v, -, -, hv, -, hbelow⟩ := exists_descends hschema.wellNamed hlawful
    (h.sound hschema hdocument hlawful) hprepares hjobs hjob
  obtain ⟨call, below, u, hget, hdescends, hfuel, htask, hruns, -⟩ := hbelow t (hfield ▸ ht)
  refine ⟨job, call, below, u, htype, hfield, .child h hdescends, hfuel,
    congrArg BuildTask.objectType htask, hruns, ?_⟩
  rw [below?, hkey, Option.bind_some, hv, Option.bind_some, hget]

/-! ## Running the root -/

/-- Whether building the root of an operation comes to a result that passes a test. -/
def rootPasses (input : CompileInput σ) (bound : Nat) (name : Option String) (memory : σ)
    (test : BuildTask σ → CompileState σ → SelectionSet → CompileState σ → Bool) : Bool :=
  match input.document.operation name with
  | .error _ => false
  | .ok operation =>
    (input.schema.rootType? operation.kind).any fun rootType =>
      let task := input.rootTask operation.selectionSet rootType
      let s := (input.start operation.selectionSet memory).reach operation.selectionSet
      match (perform (input.build bound) task).run.run s with
      | (.ok set, s') => test task s set s'
      | (.error _, _) => false

theorem exists_root {test : BuildTask σ → CompileState σ → SelectionSet → CompileState σ → Bool}
    (h : input.rootPasses bound name memory test = true) :
    ∃ task s set s', input.Performs bound name memory [] ⟨bound, task, s⟩ ∧
      Runs (perform (input.build bound) task) s set s' ∧ test task s set s' = true := by
  unfold rootPasses at h
  split at h
  · cases h
  · rename_i operation hoperation
    obtain ⟨rootType, hrootType, h⟩ := (Option.any_eq_true _ _).1 h
    dsimp only at h
    split at h
    · rename_i set s' hrun
      exact ⟨_, _, set, s', .root hoperation hrootType, hrun, h⟩
    · cases h

end CompileInput

end QueryPlan
