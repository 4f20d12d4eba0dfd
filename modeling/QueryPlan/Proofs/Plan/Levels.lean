import QueryPlan.Proofs.Plan.Internal
import QueryPlan.Proofs.Plan.Synthetic
import QueryPlan.Proofs.Plan.WellTyped

/-!
# The levels of a plan

Every selection set that can be looked up in a plan, and every part of one that is deferred, was
left by a build of the compilation. Of such a build the plan keeps everything: what it stored
stands in the plan (`Remains.agrees`), and the synthetic syntax has only grown since. So what is
to be shown of all parts of a plan may be shown of one `Level` of a build, where all that was
collected, revised and finished is at hand, and the levels below it are levels of the same plan.
-/

set_option autoImplicit false

namespace QueryPlan

variable {σ : Type}

namespace CompileInput

variable {input : CompileInput σ} {p : Plan} {fuel : Nat} {task : BuildTask σ}
  {s s₁ s₂ s₃ s₄ s' : CompileState σ} {c : Collected} {set : SelectionSet}
  {deferred : List (DeferredFragment SelectionSet)} {m : SelectionMap}
  {selections : List Selection} {jobs : List ChildJob}

/-- A build was started soundly and came to an end, and the plan has kept what it left. -/
structure Remains (input : CompileInput σ) (p : Plan) (fuel : Nat) (task : BuildTask σ)
    (s : CompileState σ) (set : SelectionSet) (s' : CompileState σ) : Prop where
  sound : input.Sound ⟨fuel, task, s⟩
  runs : Runs (perform (input.build fuel) task) s set s'
  agrees : Agrees s s' p.variants
  grows : s'.synthetic.Grows p.synthetic

/-- The steps of such a build, up to its jobs, and its jobs. -/
structure Level (input : CompileInput σ) (p : Plan) (fuel : Nat) (task : BuildTask σ)
    (s s₁ s₂ s₃ s₄ s' : CompileState σ) (c : Collected)
    (deferred : List (DeferredFragment SelectionSet)) (m : SelectionMap)
    (selections : List Selection) (jobs : List ChildJob) : Prop where
  sound : input.Sound ⟨fuel + 1, task, s⟩
  prepares : input.Prepares (input.build fuel) task s s₁ s₂ s₃ s₄ c deferred m selections jobs
  children : Runs (jobs.forM (input.compileChildren (input.build fuel) task.path task.optimizers))
    s₄ ⟨⟩ s'
  agrees : Agrees s s' p.variants
  grows : s'.synthetic.Grows p.synthetic

/-! ## From one level to the next -/

theorem Remains.level_succ (h : input.Remains p (fuel + 1) task s set s') :
    ∃ s₁ s₂ s₃ s₄ c deferred m selections jobs,
      input.Level p fuel task s s₁ s₂ s₃ s₄ s' c deferred m selections jobs ∧
      set = ⟨task.objectType, selections, deferred⟩ := by
  obtain ⟨s₁, s₂, s₃, s₄, c, deferred, m, selections, jobs, hprepares, hjobs, hset⟩ :=
    runs_build_succ.1 h.runs
  exact ⟨s₁, s₂, s₃, s₄, c, deferred, m, selections, jobs,
    ⟨h.sound, hprepares, hjobs, h.agrees, h.grows⟩, hset⟩

theorem Remains.level (h : input.Remains p fuel task s set s') :
    ∃ n s₁ s₂ s₃ s₄ c deferred m selections jobs,
      input.Level p n task s s₁ s₂ s₃ s₄ s' c deferred m selections jobs ∧
      set = ⟨task.objectType, selections, deferred⟩ := by
  cases fuel with
  | zero => exact absurd h.runs not_runs_throw
  | succ n => exact ⟨n, h.level_succ⟩

namespace Level

/-- What a level has collected is what was found in its sources. -/
theorem found (h : input.Level p fuel task s s₁ s₂ s₃ s₄ s' c deferred m selections jobs) :
    ∃ fs, Setting.FlattensAll ⟨input.schema, input.fragments, s.view input.document⟩
      task.objectType (fun _ => True) task.sources fs ∧ c = Collected.empty.mergeAll fs := by
  obtain ⟨_, hwalk, -⟩ := runs_collect.1 h.prepares.collect
  exact CollectScope.collectAll_flattens (CollectScope.answers_any _) hwalk

/-- What a level prepares, with the owners of all keys, is not touched by its jobs. -/
theorem prepared (hschema : input.schema.WellNamed) (hlawful : input.pipeline.Lawful)
    (h : input.Level p fuel task s s₁ s₂ s₃ s₄ s' c deferred m selections jobs) :
    ∃ pending loose,
      input.Prepared task pending loose s s₁ s₂ s₃ s₄ deferred m selections jobs ∧
      s₄.Kept s' := by
  have hb : input.Builds (input.build fuel) _ := builds hschema hlawful fuel
  have hproper : input.Proper task := h.sound.proper
  obtain ⟨pending, loose, howned⟩ := h.sound.owned
  have hprepared := h.prepares.prepared hschema hb hproper howned
  obtain ⟨-, hkept, -⟩ := hb.children hschema hlawful hproper hprepared.owned₄ h.children
  exact ⟨pending, loose, hprepared, hkept⟩

/-- The synthetic syntax on which the drafts are finished is still there in the plan. -/
theorem grows_finish (hschema : input.schema.WellNamed) (hlawful : input.pipeline.Lawful)
    (h : input.Level p fuel task s s₁ s₂ s₃ s₄ s' c deferred m selections jobs) :
    s₄.synthetic.Grows p.synthetic := by
  obtain ⟨pending, loose, hprepared, hkept⟩ := h.prepared hschema hlawful
  exact hkept.synthetic.trans h.grows

theorem grows_optimize (hschema : input.schema.WellNamed) (hlawful : input.pipeline.Lawful)
    (h : input.Level p fuel task s s₁ s₂ s₃ s₄ s' c deferred m selections jobs) :
    s₃.synthetic.Grows p.synthetic := by
  obtain ⟨pending, loose, hprepared, hkept⟩ := h.prepared hschema hlawful
  exact hprepared.kept₄.synthetic.trans (hkept.synthetic.trans h.grows)

theorem grows_start (hschema : input.schema.WellNamed) (hlawful : input.pipeline.Lawful)
    (h : input.Level p fuel task s s₁ s₂ s₃ s₄ s' c deferred m selections jobs) :
    s.synthetic.Grows p.synthetic := by
  obtain ⟨pending, loose, hprepared, hkept⟩ := h.prepared hschema hlawful
  exact hprepared.kept.synthetic.trans (hkept.synthetic.trans h.grows)

/-- A deferred fragment was left by a build of its own. -/
theorem deferral (hschema : input.schema.WellNamed) (hlawful : input.pipeline.Lawful)
    (h : input.Level p fuel task s s₁ s₂ s₃ s₄ s' c deferred m selections jobs)
    {e : DeferredFragment SelectionSet} (he : e ∈ deferred) :
    ∃ d ∈ c.deferrals, ∃ t set u, e = d.finish set ∧
      input.Remains p fuel (task.deferral d) t set u := by
  have hb : input.Builds (input.build fuel) _ := builds hschema hlawful fuel
  have hproper : input.Proper task := h.sound.proper
  obtain ⟨pending, loose, hprepared, hkept'⟩ := h.prepared hschema hlawful
  obtain ⟨before, d, after, built, rest, t, u, hsplit, hbefore, hone, hafter⟩ :=
    exists_of_mem_mapM h.prepares.deferrals he
  have hsound := h.sound.deferred hschema hlawful (.mk h.prepares.collect hsplit hbefore)
  -- the fragments before this one, its own build, and the fragments after it
  obtain ⟨howned_t, hkept_t, -⟩ := hb.deferrals hproper hprepared.owned₁ hbefore
  obtain ⟨set, u', hset, hfinish⟩ := runs_bind.1 hone
  obtain ⟨rfl, rfl⟩ := runs_pure.1 hfinish
  obtain ⟨howned_u, hkept_u, -⟩ := hb hsound.proper howned_t hset
  obtain ⟨-, hkept₂, -⟩ := hb.deferrals hproper howned_u hafter
  have hstart : s.Kept t := hprepared.revised₁.kept.trans hkept_t
  have hend : u.Kept s' :=
    hkept₂.trans ((hprepared.revised₃.kept.trans hprepared.kept₄).trans hkept')
  have hmem : d ∈ c.deferrals := hsplit ▸ List.mem_append_right _ List.mem_cons_self
  exact ⟨d, hmem, t, set, u, rfl, hsound, hset, (h.agrees.left hend).right hstart,
    hend.synthetic.trans h.grows⟩

/-- What stands under the key of a job was left, type by type, by builds of the sub-selections
of its occurrences. -/
theorem child (hschema : input.schema.WellNamed) (hlawful : input.pipeline.Lawful)
    (h : input.Level p fuel task s s₁ s₂ s₃ s₄ s' c deferred m selections jobs)
    {job : ChildJob} (hjob : job ∈ jobs) :
    ∃ s₅ v, s₄.Kept s₅ ∧ s₅.synthetic.Grows p.synthetic ∧
      p.variants.get? job.key = some v ∧ ∀ e ∈ v.sets.entries,
        ∃ t ∈ input.schema.possibleTypes job.field.type.innermost, e.1 = t.name ∧
          ∃ r u, input.Remains p fuel
            (input.childTask task (sourcesOf (s₅.view input.document) job.occurrences) job t)
            r e.2 u := by
  obtain ⟨pending, loose, hprepared, hkept'⟩ := h.prepared hschema hlawful
  obtain ⟨s₅, v, hkept₅, hrest, hv, hkeys, hbelow⟩ :=
    exists_descends hschema hlawful h.sound h.prepares h.children hjob
  -- the key was pending when the jobs began, so all that stands under it is new
  have hnew : job.key ∉ s.variants.keys := by
    intro hmem
    exact hprepared.owned₄.notMem_keys (List.mem_append_left _ (List.mem_map_of_mem hjob))
      (hprepared.kept.keys hmem)
  refine ⟨s₅, v, hkept₅, hrest.synthetic.trans h.grows, h.agrees hv hnew, fun e he => ?_⟩
  have hname : e.1 ∈ v.sets.keys := List.mem_map_of_mem he
  rw [hkeys] at hname
  obtain ⟨t, ht, hname⟩ := List.mem_map.1 hname
  obtain ⟨⟨n, task', r⟩, set, u, hget, hdescends, hfuel, htask, hruns, hreached, hbefore,
    hafter⟩ := hbelow t ht
  obtain rfl : n = fuel := hfuel
  obtain rfl : task' = input.childTask task
    (sourcesOf (s₅.view input.document) job.occurrences) job t := htask
  have hset : v.sets.get? t.name = some e.2 := by
    rw [OrderedMap.get?_eq_some_iff, hname]
    exact he
  rw [hget, Option.some_inj] at hset
  subst hset
  have hagrees : Agrees r u p.variants :=
    ((h.agrees.right (hprepared.kept.trans hkept₅)).right_but hbefore).left_but hreached hafter
  exact ⟨t, ht, hname.symm, r, u, h.sound.child hschema hlawful hdescends, hruns, hagrees,
    hafter.synthetic.trans h.grows⟩

end Level

/-! ## All levels -/

/-- What holds of the task of a level holds of the tasks of all levels below. -/
structure HandsDown (input : CompileInput σ) (p : Plan) (P : BuildTask σ → Prop) : Prop where
  deferral : ∀ {fuel task s s₁ s₂ s₃ s₄ s' c deferred m selections jobs},
    input.Level p fuel task s s₁ s₂ s₃ s₄ s' c deferred m selections jobs → P task →
    ∀ d ∈ c.deferrals, P (task.deferral d)
  child : ∀ {fuel task s s₁ s₂ s₃ s₄ s' c deferred m selections jobs},
    input.Level p fuel task s s₁ s₂ s₃ s₄ s' c deferred m selections jobs → P task →
    ∀ job ∈ jobs, ∀ (s₅ : CompileState σ) (t : ObjectType),
      P (input.childTask task (sourcesOf (s₅.view input.document) job.occurrences) job t)

theorem handsDown_true (input : CompileInput σ) (p : Plan) : input.HandsDown p fun _ => True :=
  ⟨fun _ _ _ _ => trivial, fun _ _ _ _ _ _ => trivial⟩

variable {P : BuildTask σ → Prop}

/-- The parts of what a build has left were left by builds as well. -/
theorem Remains.part (hschema : input.schema.WellNamed) (hlawful : input.pipeline.Lawful)
    (hdown : input.HandsDown p P) (h : input.Remains p fuel task s set s') (htask : P task)
    {part : SelectionSet} (hpart : part ∈ set.parts) :
    ∃ n task' t u, input.Remains p n task' t part u ∧ P task' := by
  induction fuel generalizing task s set s' with
  | zero => exact absurd h.runs not_runs_throw
  | succ fuel ih =>
      rw [SelectionSet.parts_eq] at hpart
      rcases List.mem_cons.1 hpart with rfl | hpart
      · exact ⟨fuel + 1, task, s, s', h, htask⟩
      · obtain ⟨s₁, s₂, s₃, s₄, c, deferred, m, selections, jobs, hlevel, rfl⟩ := h.level_succ
        obtain ⟨e, he, hpart⟩ := List.mem_flatMap.1 hpart
        obtain ⟨d, hd, t, below, u, rfl, hbelow⟩ := hlevel.deferral hschema hlawful he
        exact ih hbelow (hdown.deferral hlevel htask d hd) hpart

/-- All that stands under a key that is reached was left by builds. -/
theorem exists_remains_of_reaches (hschema : input.schema.WellNamed)
    (hlawful : input.pipeline.Lawful) (hdown : input.HandsDown p P) {root key : SelectionSetId}
    {v : SelectionVariants} (hv : p.variants.get? root = some v)
    (hroot : ∀ e ∈ v.sets.entries, ∃ n task t u, input.Remains p n task t e.2 u ∧ P task)
    (hkey : VariantMap.Reaches p.variants [root] key) :
    ∃ v, p.variants.get? key = some v ∧
      ∀ e ∈ v.sets.entries, ∃ n task t u, input.Remains p n task t e.2 u ∧ P task := by
  induction hkey with
  | root hk =>
      obtain rfl := List.mem_singleton.1 hk
      exact ⟨v, hv, hroot⟩
  | child _ hw hset hc ih =>
      obtain ⟨w, hw', hentries⟩ := ih
      rw [hw, Option.some_inj] at hw'
      subst hw'
      -- the key is owned by a selection in a part of a stored set
      obtain ⟨e, he, rfl⟩ := List.mem_map.1 hset
      obtain ⟨n, task, t, u, hremains, htask⟩ := hentries e he
      obtain ⟨part, hpart, hc⟩ := List.mem_flatMap.1 hc
      obtain ⟨sel, hsel, hkey⟩ := List.mem_filterMap.1 hc
      obtain ⟨n', task', t', u', hremains', htask'⟩ :=
        hremains.part hschema hlawful hdown htask hpart
      obtain ⟨_, _, _, _, _, _, _, _, _, _, hlevel, rfl⟩ := hremains'.level
      obtain ⟨job, hjob, rfl, -⟩ := (finished_of_runs hlevel.prepares.finish).job hsel hkey
      obtain ⟨s₅, w', -, -, hw', hbelow⟩ := hlevel.child hschema hlawful hjob
      refine ⟨w', hw', fun e' he' => ?_⟩
      obtain ⟨t'', -, -, r, u'', hremains''⟩ := hbelow e' he'
      exact ⟨_, _, r, u'', hremains'', hdown.child hlevel htask' job hjob s₅ t''⟩

/-- Every part of every selection set that can be looked up in a plan was left by a build, and its
task has what the root hands down. -/
theorem exists_remains_of_handsDown (hschema : input.schema.Built)
    (hdocument : input.document.Built) (hlawful : input.pipeline.Lawful)
    (hdown : input.HandsDown p P) {bound : Nat} {name : Option String} {memory memory' : σ}
    (htask : ∀ {operation}, input.document.operation name = .ok operation →
      ∀ rootType, P (input.rootTask operation.selectionSet rootType))
    (h : input.compileWithin bound name memory = (.ok p, memory')) {key : SelectionSetId}
    {type : String} (hset : p.selectionSet key type = .ok set) {part : SelectionSet}
    (hpart : part ∈ set.parts) : ∃ n task t u, input.Remains p n task t part u ∧ P task := by
  have hnamed := hschema.wellNamed
  have hcompiled := compiled_of_compileWithin hschema hdocument hlawful h
  have hreached : VariantMap.Reaches p.variants [p.root] key :=
    hcompiled.isTree.reached key (Plan.mem_keys_of_selectionSet hset)
  obtain ⟨operation, rootType, s, hoperation, hrootType, hrun, rfl, -⟩ :=
    compileWithin_eq_ok_iff.1 h
  have hperforms : input.Performs bound name memory [] _ := .root hoperation hrootType
  have hsound := hperforms.sound hschema hdocument hlawful
  have hroot := hdocument.closed.operation operation (Document.operation_mem hoperation)
  obtain ⟨-, -, hempty⟩ := (owned_start hdocument.closed memory hroot).reach
  obtain ⟨set₀, s₁, hruns, rfl⟩ := runs_compileVariant.1 hrun
  obtain ⟨pending, loose, howned⟩ := hsound.owned
  obtain ⟨-, hkept, -, -⟩ := builds hnamed hlawful bound hsound.proper howned hruns
  -- the root had been reached before its build, and stores what the build has left
  have hmem : operation.selectionSet ∈
      ((input.start operation.selectionSet memory).reach operation.selectionSet).variants.keys :=
    OrderedMap.mem_keys_iff.2 ⟨_, hempty⟩
  have hstored := CompileState.get?_store_self set₀ (hkept.variants hempty)
  have hagrees : Agrees
      ((input.start operation.selectionSet memory).reach operation.selectionSet)
      (s₁.store operation.selectionSet set₀)
      (s₁.store operation.selectionSet set₀).variants := fun _ _ hw _ => hw
  have hremains : input.Remains
      (input.planOf operation rootType (s₁.store operation.selectionSet set₀)) bound
      (input.rootTask operation.selectionSet rootType)
      ((input.start operation.selectionSet memory).reach operation.selectionSet) set₀ s₁ :=
    ⟨hsound, hruns, hagrees.left_but hmem (CompileState.keptBut_store s₁ _ set₀), .refl _⟩
  obtain ⟨v, hv, hentries⟩ := exists_remains_of_reaches hnamed hlawful hdown hstored
    (fun e he => by
      obtain rfl := List.mem_singleton.1 he
      exact ⟨_, _, _, _, hremains, htask hoperation rootType⟩) hreached
  obtain ⟨n, task, t, u, hleft, htask⟩ := hentries _ (Plan.mem_entries_of_selectionSet hv hset)
  exact hleft.part hnamed hlawful hdown htask hpart

/-- Every part of every selection set that can be looked up in a plan was left by a build. -/
theorem exists_remains (hschema : input.schema.Built) (hdocument : input.document.Built)
    (hlawful : input.pipeline.Lawful) {bound : Nat} {name : Option String} {memory memory' : σ}
    (h : input.compileWithin bound name memory = (.ok p, memory')) {key : SelectionSetId}
    {type : String} (hset : p.selectionSet key type = .ok set) {part : SelectionSet}
    (hpart : part ∈ set.parts) : ∃ n task t u, input.Remains p n task t part u := by
  obtain ⟨n, task, t, u, hremains, -⟩ := exists_remains_of_handsDown hschema hdocument hlawful
    (input.handsDown_true p) (fun _ _ => trivial) h hset hpart
  exact ⟨n, task, t, u, hremains⟩

end CompileInput

end QueryPlan
