import QueryPlan.Proofs.Plan.Readable

/-!
# Compilations that do not fail

Without deferral, whether a compilation fails can be read off the syntax as well: every place
that some request reaches has to be readable for its type, and must not lie deeper than the bound
allows (`Setting.Compiles`). For the sources of every set that is built stand at such a place,
and no source is kept whose clause cannot hold (`Reached`).
-/

set_option autoImplicit false

namespace QueryPlan

variable {σ : Type}

/-! ## Building does not fail -/

/-- Every place that some request reaches can be read, and whatever could be selected there lies
no deeper than the bound allows. -/
structure Setting.Compiles (g : Setting) (rootType : ObjectType) (root : SelectionSetId)
    (bound : Nat) : Prop where
  pos : 0 < bound
  readable : ∀ {vars : Variables} {path t set}, g.At vars.keep rootType root path t set →
    g.Readable t (g.view.selectionsOf set)
  room : ∀ {vars : Variables} {path t set node field inner t'},
    g.At vars.keep rootType root path t set →
    g.Collects (fun _ => true) t (g.view.selectionsOf set) node →
    t.field? node.name = some field → node.selectionSet = some inner →
    t' ∈ g.schema.possibleTypes field.type.innermost → path.length + 1 < bound

namespace CompileInput

variable {input : CompileInput σ} {rootType : ObjectType} {root : SelectionSetId}
  {path : Setting.ResponsePath} {task : BuildTask σ} {fs : List Found}

/-- The clause of each source can hold, and wherever it does the source stands at the place. -/
structure Reached (input : CompileInput σ) (rootType : ObjectType) (root : SelectionSetId)
    (path : Setting.ResponsePath) (task : BuildTask σ) : Prop where
  has : ∀ c ∈ task.sources, input.document.Has c.selectionSet
  satisfiable : ∀ c ∈ task.sources, c.clause.Satisfiable
  stands : ∀ c ∈ task.sources, ∀ vars : Variables, c.clause.isSatisfied vars = true →
    input.setting.At vars.keep rootType root path task.objectType c.selectionSet

theorem Reached.placed (h : input.Reached rootType root path task) (vars : Variables) :
    input.Placed vars.reading rootType root path task :=
  ⟨h.has, fun c hc hclause _ hcollects => ⟨c.selectionSet, h.stands c hc vars hclause, hcollects⟩⟩

theorem Reached.static (h : input.Reached rootType root path task) :
    input.Placed .static rootType root path task := by
  refine ⟨h.has, fun c hc _ node hcollects => ?_⟩
  obtain ⟨vars, hsat⟩ := h.satisfiable c hc
  exact ⟨c.selectionSet, (h.stands c hc vars hsat).mono fun _ _ => rfl, hcollects⟩

/-- What is reached at a place goes on to the places below. -/
theorem Reached.sub (hdocument : input.document.Closed)
    (h : input.Reached rootType root path task) (hagree : input.setting.NamesAgree rootType root)
    {answers : Bool → Prop}
    (hfs : input.setting.FlattensAll task.objectType answers task.sources fs)
    (hwithin : ∀ f ∈ fs, f.Within input.document) {key : String} {o : FoundField}
    {os : List FoundField} (hocc : occurrencesAt key fs = o :: os) {t : ObjectType}
    (ht : t ∈ input.schema.possibleTypes o.field.type.innermost) :
    input.Reached rootType root ((key, t.name) :: path)
      (input.subTask task (o :: os) key o.field t) := by
  refine ⟨?_, fun c hc => ?_, fun c hc vars hsat => ?_⟩
  · exact (h.static.sub hdocument h.static hagree hfs hwithin hocc ht).has
  · obtain ⟨o', ho', hclause, -⟩ := mem_subTask_sources.1 hc
    have hmem := (mem_occurrencesAt.1 (hocc ▸ ho')).1
    rw [hclause] at hmem
    exact hfs.satisfiable h.satisfiable hmem
  · obtain ⟨o', ho', hclause, hinner⟩ := mem_subTask_sources.1 hc
    rw [← hocc] at ho'
    have hholds : vars.reading.holds o'.clause = true := by
      rw [hclause]
      exact hsat
    obtain ⟨source, hat, hcollects⟩ := (h.placed vars).occurrence hfs ho' hholds
    have hfield := (h.static.field_eq hagree hfs (hocc ▸ List.mem_cons_self) ho').2
    have hbelow := Setting.At.step hat hcollects hfield hinner ht
    rwa [(mem_occurrencesAt.1 ho').2] at hbelow

/-- **Collecting the sources of a place does not fail** where the place can be read. -/
theorem succeeds_collect (hdocument : input.document.Closed)
    (hfragments : FragmentIndex.build input.document = .ok input.fragments)
    (hsources : ∀ c ∈ task.sources, input.document.Has c.selectionSet ∧
      input.setting.Readable task.objectType (input.setting.view.selectionsOf c.selectionSet)) :
    Succeeds (input.collect (input.contextOf task) task.optimizers task.sources) := by
  obtain ⟨rank, hranks, hle⟩ := FragmentIndex.exists_ranks hdocument hfragments
  have hwithin : input.fragments.Within input.document :=
    FragmentIndex.within_of_build hdocument hfragments
  intro s
  let scope := input.scope (input.contextOf task) task.optimizers s
  have hall : Succeeds (scope.collectAll task.sources) := by
    refine succeeds_foldlM (fun c hc acc => ?_) Collected.empty
    obtain ⟨hhas, hreadable⟩ := hsources c hc
    obtain ⟨fs, hfs⟩ := hreadable (some c.clause)
    have hfuel : rank c.selectionSet < scope.nestingBound := by
      have hrank := hle c.selectionSet
      show _ < input.document.syntaxArena.selectionSets.size + s.synthetic.selectionSets.size + 1
      omega
    have hview : (s.view input.document).document = input.document.syntaxArena := rfl
    have heq : input.document.view.selectionsOf c.selectionSet =
        (s.view input.document).selectionsOf c.selectionSet := hhas.selectionsOf_eq rfl rfl
    obtain ⟨hfs', -⟩ := Setting.Flattens.transfer (w := s.view input.document) hdocument hwithin rfl
      hview hfs (hdocument.resolves_selectionsOf rfl hhas)
    rw [show input.setting.view.selectionsOf c.selectionSet =
      (s.view input.document).selectionsOf c.selectionSet from heq] at hfs'
    exact CollectScope.succeeds_collect (s := scope) hdocument hview hranks hwithin hhas hfuel
      hfs' acc
  obtain ⟨c, memory, hc⟩ := hall s.memory
  exact ⟨c, _, runs_collect.2 ⟨memory, hc, rfl⟩⟩

/-- **One level of a build does not fail** if the sources can be collected, and if neither the
fragments that are set aside nor the jobs that are left fail. -/
theorem succeeds_perform {fuel : Nat} {answers : Bool → Prop} (hdocument : input.document.Closed)
    (hwithin : input.fragments.Within input.document)
    (hsources : ∀ c ∈ task.sources, input.document.Has c.selectionSet)
    (hcollect : Succeeds (input.collect (input.contextOf task) task.optimizers task.sources))
    (hpassive : ∀ o ∈ task.optimizers, o.Passive)
    (hanswers : ∀ s, (input.scope (input.contextOf task) task.optimizers s).Answers answers)
    (hdeferrals : ∀ {fs d}, input.setting.FlattensAll task.objectType answers task.sources fs →
      (∀ f ∈ fs, f.Within input.document) → .deferral d ∈ fs →
      Succeeds (perform (input.build fuel) (task.deferral d)))
    (hjobs : ∀ {fs key o os job},
      input.setting.FlattensAll task.objectType answers task.sources fs →
      (∀ f ∈ fs, f.Within input.document) → occurrencesAt key fs = o :: os →
      o.node.selectionSet ≠ none →
      job = entryJob task.objectType (key, .ofFound o os) job.key →
      Succeeds (input.compileChildren (input.build fuel) task.path task.optimizers job)) :
    Succeeds (perform (input.build (fuel + 1)) task) := by
  unfold perform CompileInput.build
  refine succeeds_bind hcollect fun s c s₁ hc => ?_
  obtain ⟨memory, hwalk, -⟩ := runs_collect.1 hc
  obtain ⟨fs, hfs, rfl⟩ := CollectScope.collectAll_flattens (hanswers s) hwalk
  obtain ⟨hflattens, hfound⟩ :
      input.setting.FlattensAll task.objectType answers task.sources fs ∧
        ∀ f ∈ fs, f.Within input.document :=
    Setting.FlattensAll.transfer hdocument hwithin rfl rfl hfs hsources
  refine succeeds_bind (succeeds_mapM fun d hd => ?_) fun _ deferred _ _ => ?_
  · have hmem : .deferral d ∈ fs := Collected.mem_deferrals_collected.1 hd
    exact succeeds_bind (hdeferrals hflattens hfound hmem) fun _ _ _ _ => succeeds_pure _
  -- the drafts stay as they are
  have hoptimize : ∀ s, ∃ s', Runs (input.optimize (input.contextOf task) task.optimizers
      (drafts (Collected.empty.mergeAll fs) task.objectType)) s
      (drafts (Collected.empty.mergeAll fs) task.objectType) s' := fun s =>
    (optimize_of_passive hpassive (drafts_keyed _ _) s).imp fun _ h => h.1
  refine succeeds_bind (fun s => ⟨_, hoptimize s⟩) fun s m s' hm => ?_
  obtain ⟨s'', hm'⟩ := hoptimize s
  obtain ⟨rfl, -⟩ := hm.unique hm'
  refine succeeds_bind (succeeds_finish _ _) fun s result s' hresult => ?_
  obtain ⟨selections, jobs⟩ := result
  refine succeeds_bind (succeeds_forM fun job hjob => ?_) fun _ _ _ _ => succeeds_pure _
  -- each job is that of a key under which something was found
  have hnodes : ∀ {node field clause}, Found.field node field clause ∈ fs →
      input.document.syntaxArena.field? node.id = some node := fun hmem => hfound _ hmem
  obtain ⟨e, he, hinner, heq⟩ := (finished_collected hnodes (finished_of_runs hresult)).2 job hjob
  obtain ⟨o', os, hocc, hentry⟩ := Collected.mem_entries_collected_iff.1 he
  rw [hentry] at hinner heq
  exact hjobs hflattens hfound hocc hinner heq

/-- The sub-selections of a job are compiled if those for each type can be built. -/
theorem succeeds_compileChildren {build : Build σ} {fs : List Found}
    (hfound : ∀ f ∈ fs, f.Within input.document) {key : String} {o : FoundField}
    {os : List FoundField} (hocc : occurrencesAt key fs = o :: os) {job : ChildJob}
    (hjob : job = entryJob task.objectType (key, .ofFound o os) job.key)
    (hbuild : ∀ t ∈ input.schema.possibleTypes o.field.type.innermost,
      Succeeds (perform build (input.subTask task (o :: os) key o.field t))) :
    Succeeds (input.compileChildren build task.path task.optimizers job) := by
  unfold compileChildren
  refine succeeds_bind (fun s => ⟨s, s, runs_get.2 ⟨rfl, rfl⟩⟩) fun _ a _ _ => ?_
  have hsources : sourcesOf (a.view input.document) job.occurrences =
      (o :: os).filterMap (·.source?) := by
    rw [hjob]
    exact sourcesOf_found hfound hocc rfl
  refine succeeds_bind (fun s => ⟨⟨⟩, _, runs_modify.2 rfl⟩) fun _ _ _ _ => ?_
  rw [hsources, hjob]
  refine succeeds_forM fun t ht s => ?_
  obtain ⟨set, s', hset⟩ := hbuild t ht (s.reach job.key)
  exact ⟨⟨⟩, _, runs_compileVariant.2 ⟨set, s', hset, rfl⟩⟩

/-- **Building does not fail** for what is reached at a place, if all that is below it can be
read and if the fuel is what the bound leaves at that depth. -/
theorem succeeds_build {bound : Nat} (hdocument : input.document.Closed)
    (hfragments : FragmentIndex.build input.document = .ok input.fragments)
    (hpassive : input.pipeline.Passive)
    (hrefuses : ∃ o ∈ input.pipeline.general, o.RefusesDeferral)
    (hagree : input.setting.NamesAgree rootType root)
    (hcompiles : input.setting.Compiles rootType root bound) {fuel : Nat} (hfuel : 0 < fuel)
    (hbound : bound ≤ path.length + fuel) (hreached : input.Reached rootType root path task)
    (hoptimizers : ∀ o ∈ task.optimizers, o.Passive)
    (hgeneral : input.pipeline.general ⊆ task.optimizers) :
    Succeeds (perform (input.build fuel) task) := by
  induction fuel generalizing path task with
  | zero => exact absurd hfuel (lt_irrefl 0)
  | succ fuel ih =>
      have hwithin : input.fragments.Within input.document :=
        FragmentIndex.within_of_build hdocument hfragments
      have hcollect : Succeeds (input.collect (input.contextOf task) task.optimizers
          task.sources) := by
        refine succeeds_collect hdocument hfragments fun c hc => ⟨hreached.has c hc, ?_⟩
        obtain ⟨vars, hsat⟩ := hreached.satisfiable c hc
        exact hcompiles.readable (hreached.stands c hc vars hsat)
      -- one of the optimizers refuses, so nothing is set aside
      obtain ⟨refusing, hrefusing, hnever⟩ := hrefuses
      refine succeeds_perform hdocument hwithin hreached.has hcollect hoptimizers
        (fun s => hnever.answers (hgeneral hrefusing)) (fun hfs _ hmem => ?_) ?_
      · exact absurd hmem (hfs.not_deferral (fun _ _ h => absurd h (by decide)) _)
      intro fs key o os job hfs hfound hocc hinner hjob
      refine succeeds_compileChildren hfound hocc hjob fun t ht => ?_
      -- a node that could be selected here has its sub-selections below
      have ho : o ∈ occurrencesAt key fs := hocc ▸ List.mem_cons_self
      have hbrings : ∃ f ∈ fs, f.Brings input.setting .static task.objectType o.node :=
        ⟨_, (mem_occurrencesAt.1 ho).1, rfl, rfl⟩
      obtain ⟨c, hc, -, hcollects⟩ := (hfs.brings_iff _ _).1 hbrings
      obtain ⟨vars, hsat⟩ := hreached.satisfiable c hc
      obtain ⟨inner, hinner⟩ := Option.ne_none_iff_exists'.1 hinner
      have hroom : path.length + 1 < bound := hcompiles.room (hreached.stands c hc vars hsat)
        hcollects (hfs.field_mem (mem_occurrencesAt.1 ho).1).2 hinner ht
      have hbelow : bound ≤ ((key, t.name) :: path).length + fuel := by
        rw [List.length_cons]
        omega
      refine ih (by omega) hbelow (hreached.sub hdocument hagree hfs hfound hocc ht)
        (passive_subTask hpassive hoptimizers) ?_
      exact List.Subset.trans hgeneral (List.subset_append_left _ _)

/-- **Compiling does not fail** where every place can be read and none lies too deep. -/
theorem exists_plan_of_compiles {bound : Nat} (hdocument : input.document.Closed)
    (hfragments : FragmentIndex.build input.document = .ok input.fragments)
    (hpassive : input.pipeline.Passive)
    (hrefuses : ∃ o ∈ input.pipeline.general, o.RefusesDeferral) {name : Option String}
    {operation : OperationNode} (hoperation : input.document.operation name = .ok operation)
    (hrootType : input.schema.rootType? operation.kind = some rootType)
    (hagree : input.setting.NamesAgree rootType operation.selectionSet)
    (hcompiles : input.setting.Compiles rootType operation.selectionSet bound) (memory : σ) :
    ∃ p memory', input.compileWithin bound name memory = (.ok p, memory') := by
  have hreached : input.Reached rootType operation.selectionSet []
      (input.rootTask operation.selectionSet rootType) := by
    refine ⟨fun c hc => ?_, fun c hc => ?_, fun c hc vars _ => ?_⟩
    · rw [List.mem_singleton.1 hc]
      exact hdocument.operation operation (Document.operation_mem hoperation)
    · rw [List.mem_singleton.1 hc]
      exact Clause.satisfiable_always
    · rw [List.mem_singleton.1 hc]
      exact .root
  have hbuild := succeeds_build hdocument hfragments hpassive hrefuses hagree hcompiles
    hcompiles.pos (Nat.zero_add _).ge hreached hpassive.general (List.Subset.refl _)
  obtain ⟨set, s, hset⟩ := hbuild ((input.start operation.selectionSet memory).reach
    operation.selectionSet)
  exact ⟨_, _, compileWithin_eq_ok_iff.2 ⟨operation, rootType, _, hoperation, hrootType,
    runs_compileVariant.2 ⟨set, s, hset, rfl⟩, rfl, rfl⟩⟩

end CompileInput

end QueryPlan
