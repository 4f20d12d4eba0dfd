import QueryPlan.Proofs.Plan.Grouping
import QueryPlan.Proofs.Schema.Named

/-!
# How selection sets are made

A build of a selection set is a recursion through a state. What it leaves behind is described
here without the state: `Made` says what was collected for a selection set, how it was revised and
finished, and that the sets of its deferred fragments and those stored under the keys of its
selections were made in the same way from what lies below. `made_build` is the one induction over
builds; all that is said about finished plans is read off the description.
-/

set_option autoImplicit false

namespace QueryPlan

variable {σ : Type}

/-! ## What is to be built -/

/-- A selection set that is to be built. -/
structure BuildTask (σ : Type) where
  objectType : ObjectType
  sources : List ClausedSet
  path : List PathSegment
  optimizers : List (Optimizer σ)

/-- The part of a deferred fragment in a task. -/
def BuildTask.deferral (task : BuildTask σ) (d : PendingDeferral) : BuildTask σ :=
  { task with sources := [⟨d.selectionSet, .always⟩] }

namespace CompileInput

variable {input : CompileInput σ}

/-- The same operation with other optimizers, which may remember something else. -/
def withPipeline {τ : Type} (input : CompileInput σ) (pipeline : Pipeline τ) : CompileInput τ :=
  ⟨input.schema, input.document, input.fragments, pipeline⟩

/-- Where a task is, as optimizers see it. -/
def contextOf (input : CompileInput σ) (task : BuildTask σ) : PlanContext :=
  ⟨input.schema, task.objectType, task.path⟩

/-- The sub-selections of a job for a type. -/
def childTask (input : CompileInput σ) (task : BuildTask σ) (sources : List ClausedSet)
    (job : ChildJob) (t : ObjectType) : BuildTask σ where
  objectType := t
  sources := sources
  path := task.path ++ [⟨job.field, job.responseKey⟩]
  optimizers := task.optimizers ++ input.pipeline.below job.declaringType job.field.name

/-- Builds what a task asks for. -/
def perform (build : Build σ) (task : BuildTask σ) : CompileM σ SelectionSet :=
  build task.objectType task.sources task.path task.optimizers

/-- Builds the part of a deferred fragment in a task. -/
def buildDeferral (build : Build σ) (task : BuildTask σ) (d : PendingDeferral) :
    CompileM σ (DeferredFragment SelectionSet) := do
  let set ← perform build (task.deferral d)
  return d.finish set

/-- Compiles the sub-selections of a job for some types. -/
def compileTypes (input : CompileInput σ) (build : Build σ) (task : BuildTask σ) (job : ChildJob)
    (sources : List ClausedSet) (ts : List ObjectType) : CompileM σ Unit :=
  ts.forM fun t =>
    compileVariant build job.key t sources (task.path ++ [⟨job.field, job.responseKey⟩])
      (task.optimizers ++ input.pipeline.below job.declaringType job.field.name)

/-! ## What was made -/

/-- Under the key of a job stands one selection set for each type that its field can have, made
as `below` says. -/
def ChildMade (input : CompileInput σ) (variants : VariantMap)
    (below : BuildTask σ → SelectionSet → Prop) (task : BuildTask σ) (job : ChildJob) : Prop :=
  ∃ v view, view.document = input.document.syntaxArena ∧ variants.get? job.key = some v ∧
    List.Forall₂
      (fun t e => e.1 = t.name ∧
        below (input.childTask task (sourcesOf view job.occurrences) job t) e.2)
      (input.schema.possibleTypes job.field.type.innermost) v.sets.entries

/-- How a selection set was made for a task, when `below` says how the ones below it were. -/
inductive Made (input : CompileInput σ) (variants : VariantMap)
    (below : BuildTask σ → SelectionSet → Prop) (task : BuildTask σ) : SelectionSet → Prop
  | mk {s s₁ s₂ s₃ : CompileState σ} {c : Collected} {m : SelectionMap}
      {deferred : List (DeferredFragment SelectionSet)} {selections : List Selection}
      {jobs : List ChildJob}
      (collected : Runs (input.collect (input.contextOf task) task.optimizers task.sources)
        s c s₁)
      (deferrals : List.Forall₂
        (fun d e => ∃ set, below (task.deferral d) set ∧ e = d.finish set) c.deferrals deferred)
      (optimized : Runs (input.optimize (input.contextOf task) task.optimizers
        (drafts c task.objectType)) s₂ m s₃)
      (fits : ∀ d ∈ m.values, d.declaringType = task.objectType ∧
        task.objectType.field? d.field.name = some d.field)
      (keyed : ∀ e ∈ m.entries, e.1 = e.2.responseKey)
      (finished : Finished (liveOccurrences c) m.values selections jobs)
      (children : ∀ job ∈ jobs, input.ChildMade variants below task job) :
      Made input variants below task ⟨task.objectType, selections, deferred⟩

/-- How a selection set was made by a build that may go so deep. -/
def MadeWithin (input : CompileInput σ) (variants : VariantMap) :
    Nat → BuildTask σ → SelectionSet → Prop
  | 0 => fun _ _ => False
  | fuel + 1 => input.Made variants (input.MadeWithin variants fuel)

theorem MadeWithin.objectType {variants : VariantMap} {n : Nat} {task : BuildTask σ}
    {set : SelectionSet} (h : input.MadeWithin variants n task set) :
    set.objectType = task.objectType := by
  cases n with
  | zero => exact h.elim
  | succ n =>
      cases h
      rfl

/-! ## One build -/

/-- The map has what was newly stored on the way from one state to another. -/
def Agrees (s s' : CompileState σ) (variants : VariantMap) : Prop :=
  ∀ ⦃k v⦄, s'.variants.get? k = some v → k ∉ s.variants.keys → variants.get? k = some v

theorem Agrees.left {s s₁ s₂ : CompileState σ} {variants : VariantMap}
    (h : Agrees s s₂ variants) (hkept : s₁.Kept s₂) : Agrees s s₁ variants :=
  fun _ _ hv hk => h (hkept.variants hv) hk

theorem Agrees.right {s s₁ s₂ : CompileState σ} {variants : VariantMap}
    (h : Agrees s s₂ variants) (hkept : s.Kept s₁) : Agrees s₁ s₂ variants :=
  fun _ _ hv hk => h hv fun hmem => hk (hkept.keys hmem)

/-- A key that had been reached does not count as newly stored. -/
theorem Agrees.left_but {s s₁ s₂ : CompileState σ} {variants : VariantMap} {key : SelectionSetId}
    (h : Agrees s s₂ variants) (hkey : key ∈ s.variants.keys) (hkept : s₁.KeptBut key s₂) :
    Agrees s s₁ variants := by
  intro k v hv hk
  have hne : k ≠ key := fun heq => hk (heq ▸ hkey)
  exact h (hkept.variants hne hv) hk

theorem Agrees.right_but {s s₁ s₂ : CompileState σ} {variants : VariantMap}
    {key : SelectionSetId} (h : Agrees s s₂ variants) (hkept : s.KeptBut key s₁) :
    Agrees s₁ s₂ variants :=
  fun _ _ hv hk => h hv fun hmem => hk (hkept.keys hmem)

/-- The optimizers of the task are lawful, and its type is one of the schema. -/
structure Proper (input : CompileInput σ) (task : BuildTask σ) : Prop where
  objectType : input.schema.objectType? task.objectType.name = some task.objectType
  optimizers : ∀ o ∈ task.optimizers, o.Lawful

/-- What a build keeps and what it makes: every key has an owner afterwards as it had before,
nothing that was stored is touched, and the result was made as `made` says, in every map that has
what the build has stored. -/
def Builds (input : CompileInput σ) (build : Build σ)
    (made : VariantMap → BuildTask σ → SelectionSet → Prop) : Prop :=
  ∀ ⦃task pending loose s set s'⦄, input.Proper task →
    s.Owned input.document pending loose → Runs (perform build task) s set s' →
    s'.Owned input.document pending (set.childKeys ++ loose) ∧ s.Kept s' ∧
      set.objectType = task.objectType ∧
      ∀ variants, Agrees s s' variants → made variants task set

/-! ## The parts of a build -/

theorem Proper.named (hschema : input.schema.WellNamed) {task : BuildTask σ}
    (h : input.Proper task) : task.objectType.Named :=
  fun _ _ hf => hschema.field_name h.objectType hf

/-- The tasks below a proper one are proper. -/
theorem Proper.child (hschema : input.schema.WellNamed) (hlawful : input.pipeline.Lawful)
    {task : BuildTask σ} (h : input.Proper task) (sources : List ClausedSet) (job : ChildJob) :
    ∀ t ∈ input.schema.possibleTypes job.field.type.innermost,
      input.Proper (input.childTask task sources job t) := by
  refine fun t ht => ⟨hschema.objectType?_of_possible ht, fun o ho => ?_⟩
  rcases List.mem_append.1 ho with ho | ho
  · exact h.optimizers o ho
  · exact hlawful.below _ _ o ho

/-- Collecting leaves all but the memory of the optimizers alone. -/
theorem revised_collect {context : PlanContext} {optimizers : List (Optimizer σ)}
    {sources : List ClausedSet} {s s' : CompileState σ} {c : Collected}
    (h : Runs (input.collect context optimizers sources) s c s') : s.Revised s' := by
  obtain ⟨memory, -, rfl⟩ := runs_collect.1 h
  exact ⟨memory, s.synthetic, rfl, .refl _⟩

/-- The drafts of collected fields fit their type, and stand under their response keys. -/
theorem fits_drafts (hschema : input.schema.WellNamed) {task : BuildTask σ}
    {s s' : CompileState σ} {c : Collected} (hproper : input.Proper task)
    (hview : (s.view input.document).Bounded)
    (h : Runs (input.collect (input.contextOf task) task.optimizers task.sources) s c s') :
    (∀ d ∈ (drafts c task.objectType).values, d.Fits task.objectType s.synthetic) ∧
      ∀ e ∈ (drafts c task.objectType).entries, e.1 = e.2.responseKey := by
  obtain ⟨memory, hwalk, -⟩ := runs_collect.1 h
  obtain ⟨fs, hfs, rfl⟩ := CollectScope.collectAll_flattens (CollectScope.answers_any _) hwalk
  refine ⟨fun d hd => ?_, drafts_keyed _ _⟩
  obtain ⟨key, hkey⟩ := OrderedMap.mem_values_iff.1 hd
  rw [drafts, OrderedMap.get?_mapValues, Option.map_eq_some_iff] at hkey
  obtain ⟨f, hf, rfl⟩ := hkey
  obtain ⟨o, os, hocc, rfl⟩ := Collected.get?_collected_iff.1 hf
  have ho : o ∈ occurrencesAt key fs := hocc ▸ List.mem_cons_self
  obtain ⟨⟨id, hn⟩, hfield⟩ := hfs.field_mem (mem_occurrencesAt.1 ho).1
  exact ⟨rfl, (hproper.named hschema hfield).symm ▸ hfield, fun set hset => hview.field hn hset⟩

section Loops

variable {build : Build σ} {made : VariantMap → BuildTask σ → SelectionSet → Prop}
  {pending loose : List SelectionSetId} {task : BuildTask σ} {s s' : CompileState σ}

/-- Deferred fragments are built one after another. -/
theorem Builds.deferrals (hb : input.Builds build made) (hproper : input.Proper task)
    {ds : List PendingDeferral} {es : List (DeferredFragment SelectionSet)}
    (howned : s.Owned input.document pending loose)
    (h : Runs (ds.mapM fun d => do
      let set ← build task.objectType [⟨d.selectionSet, .always⟩] task.path task.optimizers
      return d.finish set) s es s') :
    s'.Owned input.document pending ((es.flatMap fun e => e.selectionSet.childKeys) ++ loose) ∧
      s.Kept s' ∧ ∀ variants, Agrees s s' variants →
        List.Forall₂ (fun d e => ∃ set, made variants (task.deferral d) set ∧ e = d.finish set)
          ds es := by
  induction ds generalizing es s loose with
  | nil =>
      obtain ⟨rfl, rfl⟩ := runs_mapM_nil.1 h
      exact ⟨howned, .refl _, fun _ _ => .nil⟩
  | cons d ds ih =>
      obtain ⟨e, s₁, es', hone, hrest, rfl⟩ := runs_mapM_cons.1 h
      obtain ⟨set, s₂, hset, hfinish⟩ := runs_bind.1 hone
      obtain ⟨rfl, rfl⟩ := runs_pure.1 hfinish
      have hproper' : input.Proper (task.deferral d) := ⟨hproper.objectType, hproper.optimizers⟩
      obtain ⟨howned₁, hkept₁, -, hmade⟩ := hb hproper' howned hset
      obtain ⟨howned', hkept', hforall⟩ := ih howned₁ hrest
      -- all keys of the fragments are loose, in whatever order
      refine ⟨howned'.perm (.refl _) ?_, hkept₁.trans hkept', fun variants hagrees =>
        .cons ⟨set, hmade variants (hagrees.left hkept'), rfl⟩
          (hforall variants (hagrees.right hkept₁))⟩
      rw [List.flatMap_cons, ← List.append_assoc]
      exact List.Perm.append_right _ List.perm_append_comm

theorem runs_compileVariant {key : SelectionSetId} {t : ObjectType} {sources : List ClausedSet}
    {path : List PathSegment} {optimizers : List (Optimizer σ)} :
    Runs (compileVariant build key t sources path optimizers) s ⟨⟩ s' ↔
      ∃ set s₁, Runs (perform build ⟨t, sources, path, optimizers⟩) (s.reach key) set s₁ ∧
        s' = s₁.store key set := by
  unfold compileVariant
  rw [runs_bind]
  constructor
  · rintro ⟨_, s₁, hreached, h⟩
    obtain rfl := runs_modify.1 hreached
    obtain ⟨set, s₂, hset, hstore⟩ := runs_bind.1 h
    exact ⟨set, s₂, hset, runs_modify.1 hstore⟩
  · rintro ⟨set, s₁, hset, rfl⟩
    exact ⟨⟨⟩, _, runs_modify.2 rfl, runs_bind.2 ⟨set, s₁, hset, runs_modify.2 rfl⟩⟩

/-- Under a key that has been reached, the set of one more type is stored. -/
theorem Builds.variant (hb : input.Builds build made) {key : SelectionSetId}
    {sources : List ClausedSet} {path : List PathSegment} {optimizers : List (Optimizer σ)}
    {t : ObjectType} (hproper : input.Proper ⟨t, sources, path, optimizers⟩)
    {v : SelectionVariants} (hnew : t.name ∉ v.sets.keys)
    (hv : (s.reach key).variants.get? key = some v)
    (howned : (s.reach key).Owned input.document pending loose)
    (h : Runs (compileVariant build key t sources path optimizers) s ⟨⟩ s') :
    s'.Owned input.document pending loose ∧ (s.reach key).KeptBut key s' ∧
      ∃ set, s'.variants.get? key = some { v with sets := v.sets.insert t.name set } ∧
        ∀ variants, Agrees (s.reach key) s' variants →
          made variants ⟨t, sources, path, optimizers⟩ set := by
  obtain ⟨set, s₁, hset, rfl⟩ := runs_compileVariant.1 h
  obtain ⟨howned₁, hkept₁, htype, hmade⟩ := hb hproper howned hset
  obtain rfl : set.objectType = t := htype
  have hkey : key ∈ (s.reach key).variants.keys := OrderedMap.mem_keys_iff.2 ⟨v, hv⟩
  have hv₁ := hkept₁.variants hv
  -- the key is owned already, and so the keys of the set are no longer loose
  have hreach : VariantMap.Reaches s₁.variants loose key :=
    hkept₁.reaches (howned.reaches_of_mem_keys hkey) (List.Subset.refl _)
  have hkept : (s.reach key).KeptBut key (s₁.store key set) :=
    hkept₁.but.trans (CompileState.keptBut_store s₁ key set)
  exact ⟨howned₁.store hv₁ hnew hreach, hkept, set, CompileState.get?_store_self set hv₁,
    fun variants hagrees =>
      hmade variants (hagrees.left_but hkey (CompileState.keptBut_store s₁ key set))⟩

/-- The sets for the types of a position are stored one after another. -/
theorem Builds.variants (hb : input.Builds build made) {key : SelectionSetId}
    {sources : List ClausedSet} {path : List PathSegment} {optimizers : List (Optimizer σ)}
    {ts : List ObjectType} (hts : ∀ t ∈ ts, input.Proper ⟨t, sources, path, optimizers⟩)
    (hnodup : (ts.map (·.name)).Nodup) {v : SelectionVariants}
    (hnew : ∀ t ∈ ts, t.name ∉ v.sets.keys) (hv : s.variants.get? key = some v)
    (howned : s.Owned input.document pending loose)
    (h : Runs (ts.forM fun t => compileVariant build key t sources path optimizers) s ⟨⟩ s') :
    s'.Owned input.document pending loose ∧ s.KeptBut key s' ∧
      ∃ es v', s'.variants.get? key = some v' ∧ v'.sets.entries = v.sets.entries ++ es ∧
        ∀ variants, Agrees s s' variants →
          List.Forall₂ (fun t e => e.1 = t.name ∧
            made variants ⟨t, sources, path, optimizers⟩ e.2) ts es := by
  induction ts generalizing s v with
  | nil =>
      obtain rfl := runs_forM_nil.1 h
      exact ⟨howned, .refl _ _, [], v, hv, (List.append_nil _).symm, fun _ _ => .nil⟩
  | cons t ts ih =>
      rw [List.map_cons, List.nodup_cons] at hnodup
      obtain ⟨s₁, hone, hrest⟩ := runs_forM_cons.1 h
      have hkey : key ∈ s.variants.keys := OrderedMap.mem_keys_iff.2 ⟨v, hv⟩
      have hfresh : t.name ∉ v.sets.keys := hnew t List.mem_cons_self
      have hreach : s.reach key = s := CompileState.reach_of_mem hkey
      obtain ⟨howned₁, hkept₁, set, hv₁, hmade⟩ := hb.variant (hts t List.mem_cons_self) hfresh
        (hreach.symm ▸ hv) (hreach.symm ▸ howned) hone
      rw [hreach] at hkept₁ hmade
      have hnew' : ∀ t' ∈ ts, t'.name ∉ (v.sets.insert t.name set).keys := by
        intro t' ht' hmem
        rcases OrderedMap.mem_keys_insert.1 hmem with hname | hmem
        · exact hnodup.1 (hname ▸ List.mem_map_of_mem ht')
        · exact hnew t' (List.mem_cons_of_mem _ ht') hmem
      obtain ⟨howned', hkept', es, v', hv', hes, hmade'⟩ :=
        ih (fun t ht => hts t (List.mem_cons_of_mem _ ht)) hnodup.2 hnew' hv₁ howned₁ hrest
      refine ⟨howned', hkept₁.trans hkept', (t.name, set) :: es, v', hv', ?_,
        fun variants hagrees => .cons ⟨rfl, hmade variants (hagrees.left_but hkey hkept')⟩
          (hmade' variants (hagrees.right_but hkept₁))⟩
      rw [hes, OrderedMap.entries_insert_of_notMem set hfresh, List.append_assoc]
      rfl

/-- The sub-selections of a job are compiled from what can be reached when its turn has come. -/
theorem runs_compileChildren {job : ChildJob} :
    Runs (input.compileChildren build task.path task.optimizers job) s ⟨⟩ s' ↔
      Runs (input.compileTypes build task job (sourcesOf (s.view input.document) job.occurrences)
        (input.schema.possibleTypes job.field.type.innermost)) (s.reach job.key) ⟨⟩ s' := by
  unfold compileChildren compileTypes
  rw [runs_bind]
  constructor
  · rintro ⟨_, _, hget, h⟩
    obtain ⟨rfl, rfl⟩ := runs_get.1 hget
    obtain ⟨_, s₁, hreached, h⟩ := runs_bind.1 h
    obtain rfl := runs_modify.1 hreached
    exact h
  · exact fun h => ⟨s, s, runs_get.2 ⟨rfl, rfl⟩, runs_bind.2 ⟨⟨⟩, _, runs_modify.2 rfl, h⟩⟩

/-- The sub-selections of one job are compiled for every type that the field can have. -/
theorem Builds.child (hschema : input.schema.WellNamed) (hlawful : input.pipeline.Lawful)
    (hb : input.Builds build made) (hproper : input.Proper task) {job : ChildJob}
    (howned : s.Owned input.document (job.key :: pending) loose)
    (h : Runs (input.compileChildren build task.path task.optimizers job) s ⟨⟩ s') :
    s'.Owned input.document pending loose ∧ s.Kept s' ∧
      ∀ variants, Agrees s s' variants → input.ChildMade variants (made variants) task job := by
  obtain ⟨howned₁, hkept₁, hv⟩ := howned.reach
  have hproper' := hproper.child hschema hlawful
    (sourcesOf (s.view input.document) job.occurrences) job
  obtain ⟨howned', hkept, es, v', hv', hes, hmade⟩ := hb.variants hproper'
    (hschema.possibleTypes_nodup _) (fun _ _ => List.not_mem_nil) hv howned₁
    (runs_compileChildren.1 h)
  -- the key was pending, so all that stands under it is new
  have hnew : job.key ∉ s.variants.keys := howned.notMem_keys List.mem_cons_self
  refine ⟨howned', ⟨fun {k w} hw => ?_, hkept₁.synthetic.trans hkept.synthetic⟩,
    fun variants hagrees => ⟨v', s.view input.document, rfl, hagrees hv' hnew, ?_⟩⟩
  · have hne : k ≠ job.key := fun hk => hnew (hk ▸ OrderedMap.mem_keys_iff.2 ⟨w, hw⟩)
    exact hkept.variants hne (hkept₁.variants hw)
  · rw [hes]
    exact hmade variants (hagrees.right hkept₁)

/-- The jobs of a selection set are done one after another. -/
theorem Builds.children (hschema : input.schema.WellNamed) (hlawful : input.pipeline.Lawful)
    (hb : input.Builds build made) (hproper : input.Proper task) {jobs : List ChildJob}
    (howned : s.Owned input.document (jobs.map (·.key) ++ pending) loose)
    (h : Runs (jobs.forM (input.compileChildren build task.path task.optimizers)) s ⟨⟩ s') :
    s'.Owned input.document pending loose ∧ s.Kept s' ∧ ∀ variants, Agrees s s' variants →
      ∀ job ∈ jobs, input.ChildMade variants (made variants) task job := by
  induction jobs generalizing s with
  | nil =>
      obtain rfl := runs_forM_nil.1 h
      exact ⟨howned, .refl _, fun _ _ _ hjob => absurd hjob List.not_mem_nil⟩
  | cons job jobs ih =>
      obtain ⟨s₁, hone, hrest⟩ := runs_forM_cons.1 h
      obtain ⟨howned₁, hkept₁, hmade₁⟩ := hb.child hschema hlawful hproper howned hone
      obtain ⟨howned', hkept', hmade⟩ := ih howned₁ hrest
      refine ⟨howned', hkept₁.trans hkept', fun variants hagrees job' hjob => ?_⟩
      rcases List.mem_cons.1 hjob with rfl | hjob
      · exact hmade₁ variants (hagrees.left hkept')
      · exact hmade variants (hagrees.right hkept₁) job' hjob

end Loops

/-! ## All builds -/

/-- The stages of one level of a build, from one state to another, with the owners of all keys in
between. -/
inductive Stages (input : CompileInput σ) (fuel : Nat) (task : BuildTask σ)
    (pending loose : List SelectionSetId) (s : CompileState σ) :
    SelectionSet → CompileState σ → Prop
  | mk {s₁ s₂ s₃ s₄ s' : CompileState σ} {c : Collected} {m : SelectionMap}
      {deferred : List (DeferredFragment SelectionSet)} {selections : List Selection}
      {jobs : List ChildJob}
      (collect : Runs (input.collect (input.contextOf task) task.optimizers task.sources) s c s₁)
      (revised₁ : s.Revised s₁) (owned₁ : s₁.Owned input.document pending loose)
      (deferrals : Runs (c.deferrals.mapM fun d => do
        let set ← input.build fuel task.objectType [⟨d.selectionSet, .always⟩] task.path
          task.optimizers
        return d.finish set) s₁ deferred s₂)
      (kept₂ : s₁.Kept s₂)
      (optimize : Runs (input.optimize (input.contextOf task) task.optimizers
        (drafts c task.objectType)) s₂ m s₃)
      (revised₃ : s₂.Revised s₃)
      (fits : ∀ d ∈ m.values, d.Fits task.objectType s₃.synthetic)
      (keyed : ∀ e ∈ m.entries, e.1 = e.2.responseKey)
      (finish : Runs (input.finish (liveOccurrences c) m.values) s₃ (selections, jobs) s₄)
      (owned₄ : s₄.Owned input.document (jobs.map (·.key) ++ pending)
        (selectionKeys selections ++ ((deferred.flatMap fun e => e.selectionSet.childKeys) ++
          loose)))
      (kept₄ : s₃.Kept s₄)
      (children : Runs (jobs.forM (input.compileChildren (input.build fuel) task.path
        task.optimizers)) s₄ ⟨⟩ s')
      (kept' : s₄.Kept s') :
      Stages input fuel task pending loose s ⟨task.objectType, selections, deferred⟩ s'

/-- One level of a build up to its jobs: what it collects, defers, revises and finishes, each from
the state that the step before has left. -/
structure Prepares (input : CompileInput σ) (build : Build σ) (task : BuildTask σ)
    (s s₁ s₂ s₃ s₄ : CompileState σ) (c : Collected)
    (deferred : List (DeferredFragment SelectionSet)) (m : SelectionMap)
    (selections : List Selection) (jobs : List ChildJob) : Prop where
  collect : Runs (input.collect (input.contextOf task) task.optimizers task.sources) s c s₁
  deferrals : Runs (c.deferrals.mapM (buildDeferral build task)) s₁ deferred s₂
  optimize : Runs (input.optimize (input.contextOf task) task.optimizers
    (drafts c task.objectType)) s₂ m s₃
  finish : Runs (input.finish (liveOccurrences c) m.values) s₃ (selections, jobs) s₄

/-- One level of a build is made up of what it prepares and of its jobs. -/
theorem runs_build_succ {fuel : Nat} {task : BuildTask σ} {s s' : CompileState σ}
    {set : SelectionSet} :
    Runs (perform (input.build (fuel + 1)) task) s set s' ↔
      ∃ s₁ s₂ s₃ s₄ c deferred m selections jobs,
        input.Prepares (input.build fuel) task s s₁ s₂ s₃ s₄ c deferred m selections jobs ∧
        Runs (jobs.forM (input.compileChildren (input.build fuel) task.path task.optimizers))
          s₄ ⟨⟩ s' ∧
        set = ⟨task.objectType, selections, deferred⟩ := by
  unfold perform CompileInput.build
  constructor
  · intro h
    obtain ⟨c, s₁, hcollect, h⟩ := runs_bind.1 h
    obtain ⟨deferred, s₂, hdeferred, h⟩ := runs_bind.1 h
    obtain ⟨m, s₃, hoptimize, h⟩ := runs_bind.1 h
    obtain ⟨⟨selections, jobs⟩, s₄, hfinish, h⟩ := runs_bind.1 h
    obtain ⟨_, s₅, hjobs, h⟩ := runs_bind.1 h
    obtain ⟨rfl, rfl⟩ := runs_pure.1 h
    exact ⟨s₁, s₂, s₃, s₄, c, deferred, m, selections, jobs,
      ⟨hcollect, hdeferred, hoptimize, hfinish⟩, hjobs, rfl⟩
  · rintro ⟨s₁, s₂, s₃, s₄, c, deferred, m, selections, jobs, h, hjobs, rfl⟩
    refine runs_bind.2 ⟨c, s₁, h.collect, runs_bind.2 ⟨deferred, s₂, h.deferrals, ?_⟩⟩
    refine runs_bind.2 ⟨m, s₃, h.optimize, runs_bind.2 ⟨(selections, jobs), s₄, h.finish, ?_⟩⟩
    exact runs_bind.2 ⟨⟨⟩, s', hjobs, runs_pure.2 ⟨rfl, rfl⟩⟩

/-- What a level of a build leaves for its jobs: drafts that fit, and an owner for every key. -/
structure Prepared (input : CompileInput σ) (task : BuildTask σ)
    (pending loose : List SelectionSetId) (s s₁ s₂ s₃ s₄ : CompileState σ)
    (deferred : List (DeferredFragment SelectionSet)) (m : SelectionMap)
    (selections : List Selection) (jobs : List ChildJob) : Prop where
  revised₁ : s.Revised s₁
  owned₁ : s₁.Owned input.document pending loose
  kept₂ : s₁.Kept s₂
  owned₂ : s₂.Owned input.document pending
    ((deferred.flatMap fun e => e.selectionSet.childKeys) ++ loose)
  revised₃ : s₂.Revised s₃
  fits : ∀ d ∈ m.values, d.Fits task.objectType s₃.synthetic
  keyed : ∀ e ∈ m.entries, e.1 = e.2.responseKey
  owned₄ : s₄.Owned input.document (jobs.map (·.key) ++ pending)
    (selectionKeys selections ++ ((deferred.flatMap fun e => e.selectionSet.childKeys) ++
      loose))
  kept₄ : s₃.Kept s₄

theorem Prepared.kept {task : BuildTask σ} {pending loose : List SelectionSetId}
    {s s₁ s₂ s₃ s₄ : CompileState σ} {deferred : List (DeferredFragment SelectionSet)}
    {m : SelectionMap} {selections : List Selection} {jobs : List ChildJob}
    (h : input.Prepared task pending loose s s₁ s₂ s₃ s₄ deferred m selections jobs) : s.Kept s₄ :=
  (h.revised₁.kept.trans h.kept₂).trans (h.revised₃.kept.trans h.kept₄)

theorem Prepares.prepared (hschema : input.schema.WellNamed) {build : Build σ}
    {made : VariantMap → BuildTask σ → SelectionSet → Prop} (hb : input.Builds build made)
    {task : BuildTask σ} {pending loose : List SelectionSetId} {s s₁ s₂ s₃ s₄ : CompileState σ}
    {c : Collected} {deferred : List (DeferredFragment SelectionSet)} {m : SelectionMap}
    {selections : List Selection} {jobs : List ChildJob} (hproper : input.Proper task)
    (howned : s.Owned input.document pending loose)
    (h : input.Prepares build task s s₁ s₂ s₃ s₄ c deferred m selections jobs) :
    input.Prepared task pending loose s s₁ s₂ s₃ s₄ deferred m selections jobs := by
  have hrevised₁ := revised_collect h.collect
  obtain ⟨hfits, hkeyed⟩ := fits_drafts hschema hproper howned.view h.collect
  -- the deferred fragments are built, and then the drafts are revised
  have howned₁ := howned.revised hrevised₁
  obtain ⟨howned₂, hkept₂, -⟩ := hb.deferrals hproper howned₁ h.deferrals
  have hfits₂ : ∀ d ∈ (drafts c task.objectType).values,
      d.Fits task.objectType s₂.synthetic := fun d hd =>
    ((hfits d hd).grow hrevised₁.grows).grow hkept₂.synthetic
  obtain ⟨hrevised₃, hfits₃, hkeyed₃⟩ := fits_optimize hproper.optimizers howned₂.view
    (hproper.named hschema) hfits₂ hkeyed h.optimize
  -- finishing claims keys for the jobs
  obtain ⟨howned₄, hkept₄, -⟩ := owned_finish (howned₂.revised hrevised₃)
    (fun d hd => (hfits₃ d hd).bounded) h.finish
  exact ⟨hrevised₁, howned₁, hkept₂, howned₂, hrevised₃, hfits₃, hkeyed₃, howned₄, hkept₄⟩

/-- One level of a build goes through its stages, when the builds below it do what they
should. -/
theorem stages_of_runs (hschema : input.schema.WellNamed) (hlawful : input.pipeline.Lawful)
    {fuel : Nat} {made : VariantMap → BuildTask σ → SelectionSet → Prop}
    (hb : input.Builds (input.build fuel) made) {task : BuildTask σ}
    {pending loose : List SelectionSetId} {s s' : CompileState σ} {set : SelectionSet}
    (hproper : input.Proper task) (howned : s.Owned input.document pending loose)
    (h : Runs (perform (input.build (fuel + 1)) task) s set s') :
    input.Stages fuel task pending loose s set s' := by
  obtain ⟨s₁, s₂, s₃, s₄, c, deferred, m, selections, jobs, hprepares, hjobs, rfl⟩ :=
    runs_build_succ.1 h
  have hp := hprepares.prepared hschema hb hproper howned
  obtain ⟨-, hkept', -⟩ := hb.children hschema hlawful hproper hp.owned₄ hjobs
  exact .mk hprepares.collect hp.revised₁ hp.owned₁ hprepares.deferrals hp.kept₂
    hprepares.optimize hp.revised₃ hp.fits hp.keyed hprepares.finish hp.owned₄ hp.kept₄ hjobs
    hkept'

/-- One level of a build, when the builds below it do what they should. -/
theorem builds_succ (hschema : input.schema.WellNamed) (hlawful : input.pipeline.Lawful)
    {fuel : Nat}
    (hb : input.Builds (input.build fuel) fun variants => input.MadeWithin variants fuel) :
    input.Builds (input.build (fuel + 1))
      fun variants => input.MadeWithin variants (fuel + 1) := by
  intro task pending loose s set s' hproper howned h
  obtain ⟨hcollect, hrevised₁, howned₁, hdeferred, -, hoptimize, hrevised₃, hfits, hkeyed,
    hfinish, howned₄, hkept₄, hjobs, -⟩ := stages_of_runs hschema hlawful hb hproper howned h
  rename_i s₁ s₂ s₃ s₄ c m deferred selections jobs
  obtain ⟨-, hkept₂, hmade₂⟩ := hb.deferrals hproper howned₁ hdeferred
  obtain ⟨howned', hkept', hmade'⟩ := hb.children hschema hlawful hproper howned₄ hjobs
  -- each stretch agrees with a map that agrees with the whole build
  have hkept : s.Kept s₄ := (hrevised₁.kept.trans hkept₂).trans (hrevised₃.kept.trans hkept₄)
  refine ⟨howned'.perm (.refl _) ?_, hkept.trans hkept', rfl, fun variants hagrees => ?_⟩
  · rw [SelectionSet.childKeys_mk, List.append_assoc]
  · have hagrees₂ : Agrees s₁ s₂ variants :=
      (hagrees.left ((hrevised₃.kept.trans hkept₄).trans hkept')).right hrevised₁.kept
    exact .mk hcollect (hmade₂ variants hagrees₂) hoptimize
      (fun d hd => ⟨(hfits d hd).declaringType, (hfits d hd).field⟩) hkeyed
      (finished_of_runs hfinish) (hmade' variants (hagrees.right hkept))

/-- Whatever depth it may go to, a build gives every key an owner, touches nothing that is
there, and makes what `MadeWithin` describes. -/
theorem builds (hschema : input.schema.WellNamed) (hlawful : input.pipeline.Lawful)
    (fuel : Nat) :
    input.Builds (input.build fuel) fun variants => input.MadeWithin variants fuel := by
  induction fuel with
  | zero => exact fun _ _ _ _ _ _ _ _ h => absurd h not_runs_throw
  | succ fuel ih => exact builds_succ hschema hlawful ih

/-! ## Plans -/

/-- What the root of an operation is built from. -/
def rootTask (input : CompileInput σ) (root : SelectionSetId) (rootType : ObjectType) :
    BuildTask σ :=
  ⟨rootType, [⟨root, .always⟩], [], input.pipeline.general⟩

/-- The plan that is left when a compilation has come to an end. -/
def planOf (input : CompileInput σ) (operation : OperationNode) (rootType : ObjectType)
    (s : CompileState σ) : Plan where
  document := input.document
  operation := operation
  rootType := rootType
  selectionCount := s.nextId
  synthetic := s.synthetic
  variants := s.variants

/-- Compiling an operation is a run from the start that stores the root. -/
theorem compileWithin_eq_ok_iff {bound : Nat} {name : Option String} {memory memory' : σ}
    {p : Plan} :
    input.compileWithin bound name memory = (.ok p, memory') ↔
      ∃ operation rootType s, input.document.operation name = .ok operation ∧
        input.schema.rootType? operation.kind = some rootType ∧
        Runs (compileVariant (input.build bound) operation.selectionSet rootType
          [⟨operation.selectionSet, .always⟩] [] input.pipeline.general)
          (input.start operation.selectionSet memory) ⟨⟩ s ∧
        p = input.planOf operation rootType s ∧ memory' = s.memory := by
  constructor
  · intro h
    unfold compileWithin at h
    split at h
    · cases h
    · rename_i operation hoperation
      split at h
      · cases h
      · rename_i rootType hrootType
        dsimp only at h
        rcases hrun : (compileVariant (input.build bound) operation.selectionSet rootType
          [⟨operation.selectionSet, .always⟩] [] input.pipeline.general).run.run
          (input.start operation.selectionSet memory) with ⟨result, s⟩
        rw [hrun] at h
        cases result with
        | error e => cases h
        | ok u =>
            cases h
            exact ⟨operation, rootType, s, hoperation, hrootType, hrun, rfl, rfl⟩
  · rintro ⟨operation, rootType, s, hoperation, hrootType, hrun, rfl, rfl⟩
    unfold Runs at hrun
    unfold compileWithin
    rw [hoperation]
    dsimp only
    rw [hrootType]
    dsimp only
    rw [hrun]
    rfl

/-- The plan was compiled from an operation of the document. -/
structure Compiled (input : CompileInput σ) (bound : Nat) (name : Option String) (p : Plan) :
    Prop where
  document : p.document = input.document
  operation : input.document.operation name = .ok p.operation
  rootType : input.schema.rootType? p.operation.kind = some p.rootType
  root : ∃ v set, p.variants.get? p.root = some v ∧ v.sets.entries = [(p.rootType.name, set)] ∧
    input.MadeWithin p.variants bound (input.rootTask p.root p.rootType) set
  owned : ∃ s : CompileState σ, s.variants = p.variants ∧ s.Owned input.document [] [p.root]

theorem owned_start (hdocument : input.document.Closed) {root : SelectionSetId} (memory : σ)
    (hroot : ∃ set, input.document.syntaxArena.selectionSet? root = some set) :
    (input.start root memory).Owned input.document [root] [root] where
  view := by
    refine ⟨fun id node set hn hs => ?_, fun id node set hn => ?_, le_rfl⟩
    · have hn : input.document.syntaxArena.field? id = some node := hn
      have hinner : input.document.syntaxArena.innerSet? (.field id) = some set := by
        rw [SyntaxArena.innerSet?, hn]
        exact hs
      obtain ⟨_, hset⟩ := hdocument.arena.inner hinner
      exact SyntaxArena.lt_of_selectionSet? hset
    · simp [start, CompileState.view, SyntaxArena.syntheticAfter, SyntaxArena.field?,
        SyntaxArena.atIndex?] at hn
  below k hk := by
    obtain rfl := List.mem_singleton.1 hk
    obtain ⟨_, hset⟩ := hroot
    have hlt := SyntaxArena.lt_of_selectionSet? hset
    exact hlt
  nodup := List.nodup_singleton root
  keys _ := Nat.zero_add _
  children _ := Nat.zero_add _
  reached _ hk := .root hk

/-- Every compiled plan was made as a build makes it. -/
theorem compiled_of_compileWithin (hschema : input.schema.Built)
    (hdocument : input.document.Built) (hlawful : input.pipeline.Lawful) {bound : Nat}
    {name : Option String} {memory memory' : σ} {p : Plan}
    (h : input.compileWithin bound name memory = (.ok p, memory')) :
    input.Compiled bound name p := by
  obtain ⟨operation, rootType, s, hoperation, hrootType, hrun, rfl, -⟩ :=
    compileWithin_eq_ok_iff.1 h
  have hnamed := hschema.wellNamed
  have hroot := hdocument.closed.operation operation (Document.operation_mem hoperation)
  obtain ⟨howned, -, hv⟩ := (owned_start hdocument.closed memory hroot).reach
  have hproper : input.Proper (input.rootTask operation.selectionSet rootType) :=
    ⟨hnamed.objectType?_of_rootType hrootType, hlawful.general⟩
  obtain ⟨howned', -, set, hv', hmade⟩ :=
    (builds hnamed hlawful bound).variant hproper List.not_mem_nil hv howned hrun
  -- nothing was stored before, so the final map has all that the build has stored
  exact ⟨rfl, hoperation, hrootType, ⟨_, set, hv', rfl, hmade _ fun _ _ hw _ => hw⟩, s, rfl,
    howned'⟩

end CompileInput

end QueryPlan
