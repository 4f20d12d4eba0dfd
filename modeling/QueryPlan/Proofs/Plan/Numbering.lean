import QueryPlan.Proofs.Plan.Made

/-!
# Numbers of selections

All selections of a compilation are numbered by one counter. A build takes the numbers from where
the counter stands to where it leaves it, in a fixed order: first come the selections of the
deferred fragments with all that is below them, then those of the selection set itself, and then
those below its keys (`SelectionSet.Numbered`). What a build stores is never replaced, so this can
be said of the map that is left at the end.
-/

set_option autoImplicit false

namespace QueryPlan

variable {σ : Type}

/-! ## Stretches of numbers -/

/-- Each of the items takes the numbers that follow on those of the one before. -/
inductive Threads {α : Type} (R : Nat → α → Nat → Prop) : Nat → List α → Nat → Prop
  | nil {n} : Threads R n [] n
  | cons {n m k x xs} : R n x m → Threads R m xs k → Threads R n (x :: xs) k

namespace Threads

variable {α : Type} {R : Nat → α → Nat → Prop} {n k : Nat}

theorem exists_of_mem {xs : List α} (h : Threads R n xs k) {x : α} (hx : x ∈ xs) :
    ∃ n' k', R n' x k' := by
  induction h with
  | nil => exact absurd hx List.not_mem_nil
  | cons hone _ ih =>
      rcases List.mem_cons.1 hx with rfl | hx
      · exact ⟨_, _, hone⟩
      · exact ih hx

theorem le {xs : List α} (h : Threads R n xs k) (hle : ∀ {n x k}, R n x k → n ≤ k) : n ≤ k := by
  induction h with
  | nil => exact Nat.le_refl _
  | cons hone _ ih => exact (hle hone).trans ih

/-- The stretch of an item lies within the whole one. -/
theorem exists_within {xs : List α} (h : Threads R n xs k) (hle : ∀ {n x k}, R n x k → n ≤ k)
    {x : α} (hx : x ∈ xs) : ∃ n' k', n ≤ n' ∧ R n' x k' ∧ k' ≤ k := by
  induction h with
  | nil => exact absurd hx List.not_mem_nil
  | cons hone hrest ih =>
      rcases List.mem_cons.1 hx with rfl | hx
      · exact ⟨_, _, Nat.le_refl _, hone, hrest.le hle⟩
      · obtain ⟨n', k', hn, hone', hk⟩ := ih hx
        exact ⟨n', k', (hle hone).trans hn, hone', hk⟩

end Threads

/-! ## Numbered selection sets -/

/-- The sets under the key take the numbers of the stretch, one after another. -/
def KeyNumbered (variants : VariantMap) (below : Nat → SelectionSet → Nat → Prop) (first : Nat)
    (key : SelectionSetId) (next : Nat) : Prop :=
  ∃ v, variants.get? key = some v ∧ Threads below first v.sets.values next

/-- The selections of the set and those below it take the numbers of the stretch: deferred
fragments come first, then the selections themselves, and then what is below their keys. -/
inductive SelectionSet.Numbered (variants : VariantMap) (below : Nat → SelectionSet → Nat → Prop) :
    Nat → SelectionSet → Nat → Prop
  | mk {t : ObjectType} {selections : List Selection}
      {deferred : List (DeferredFragment SelectionSet)} {first own next : Nat} :
      Threads (fun n d k => below n d.selectionSet k) first deferred own →
      selections.map (·.id) = List.range' own selections.length →
      Threads (KeyNumbered variants below) (own + selections.length) (selectionKeys selections)
        next →
      Numbered variants below first ⟨t, selections, deferred⟩ next

/-- How a selection set was numbered by a build that may go so deep. -/
def NumberedWithin (variants : VariantMap) : Nat → Nat → SelectionSet → Nat → Prop
  | 0 => fun _ _ _ => False
  | fuel + 1 => SelectionSet.Numbered variants (NumberedWithin variants fuel)

namespace CompileInput

variable {input : CompileInput σ}

/-! ## Numbers that finishing hands out -/

theorem nextId_claim (s : CompileState σ) (document : Document) (key : SelectionSetId) :
    (s.claim document key).2.nextId = s.nextId := by
  unfold CompileState.claim
  split <;> rfl

/-- Finishing numbers the selections in their order, and leaves jobs for their keys. -/
theorem numbered_finish {live : LiveOccurrences} {ds : List SelectionDraft}
    {selections : List Selection} {jobs : List ChildJob} {s s' : CompileState σ}
    (h : Runs (input.finish live ds) s (selections, jobs) s') :
    selections.map (·.id) = List.range' s.nextId selections.length ∧
      s'.nextId = s.nextId + selections.length ∧ jobs.map (·.key) = selectionKeys selections := by
  induction ds generalizing live s selections jobs with
  | nil =>
      obtain ⟨rfl, rfl, rfl⟩ := runs_finish_nil.1 h
      exact ⟨rfl, rfl, rfl⟩
  | cons d ds ih =>
      cases hd : d.selectionSet with
      | none =>
          obtain ⟨rest, hrest, rfl⟩ := (runs_finish_leaf hd).1 h
          obtain ⟨hids, hnext, hkeys⟩ := ih hrest
          have htake : (takeId s).nextId = s.nextId + 1 := rfl
          rw [htake] at hids hnext
          refine ⟨?_, ?_, ?_⟩
          · rw [List.map_cons, hids, List.length_cons, List.range'_succ]
          · rw [hnext, List.length_cons]
            omega
          · rw [hkeys, selectionKeys_cons_none (by exact hd)]
      | some set =>
          obtain ⟨key, s₁, rest, jobs', hclaim, hrest, rfl, rfl⟩ := (runs_finish_inner hd).1 h
          obtain ⟨hids, hnext, hkeys⟩ := ih hrest
          have hs₁ : s₁.nextId = s.nextId + 1 := by
            have heq := nextId_claim (takeId s) input.document set
            rw [hclaim] at heq
            exact heq
          rw [hs₁] at hids hnext
          refine ⟨?_, ?_, ?_⟩
          · rw [List.map_cons, hids, List.length_cons, List.range'_succ]
          · rw [hnext, List.length_cons]
            omega
          · rw [List.map_cons, hkeys, selectionKeys_cons_some rfl]
            rfl

/-! ## Numbers that a build hands out -/

/-- From where the counter stands to where the build leaves it, all numbers go to the set that is
built and to what is below it. -/
def Numbers (input : CompileInput σ) (build : Build σ)
    (numbered : VariantMap → Nat → SelectionSet → Nat → Prop) : Prop :=
  ∀ ⦃task pending loose s set s'⦄, input.Proper task →
    s.Owned input.document pending loose → Runs (perform build task) s set s' →
    ∀ variants, Agrees s s' variants → numbered variants s.nextId set s'.nextId

theorem nextId_of_revised {s s' : CompileState σ} (h : s.Revised s') : s'.nextId = s.nextId := by
  obtain ⟨_, _, rfl, -⟩ := h
  rfl

theorem nextId_reach (s : CompileState σ) (key : SelectionSetId) :
    (s.reach key).nextId = s.nextId := by
  unfold CompileState.reach
  split <;> rfl

section Loops

variable {build : Build σ} {made : VariantMap → BuildTask σ → SelectionSet → Prop}
  {numbered : VariantMap → Nat → SelectionSet → Nat → Prop}
  {pending loose : List SelectionSetId} {task : BuildTask σ} {s s' : CompileState σ}
  {w : VariantMap}

/-- The deferred fragments take their numbers one after another. -/
theorem Numbers.deferrals (hn : input.Numbers build numbered) (hb : input.Builds build made)
    (hproper : input.Proper task) {ds : List PendingDeferral}
    {es : List (DeferredFragment SelectionSet)} (howned : s.Owned input.document pending loose)
    (h : Runs (ds.mapM fun d => do
      let set ← build task.objectType [⟨d.selectionSet, .always⟩] task.path task.optimizers
      return d.finish set) s es s') (hagrees : Agrees s s' w) :
    Threads (fun n e k => numbered w n e.selectionSet k) s.nextId es s'.nextId := by
  induction ds generalizing es s loose with
  | nil =>
      obtain ⟨rfl, rfl⟩ := runs_mapM_nil.1 h
      exact .nil
  | cons d ds ih =>
      obtain ⟨e, s₁, es', hone, hrest, rfl⟩ := runs_mapM_cons.1 h
      obtain ⟨set, s₂, hset, hfinish⟩ := runs_bind.1 hone
      obtain ⟨rfl, rfl⟩ := runs_pure.1 hfinish
      have hproper' : input.Proper (task.deferral d) := ⟨hproper.objectType, hproper.optimizers⟩
      obtain ⟨howned₁, hkept₁, -⟩ := hb hproper' howned hset
      obtain ⟨-, hkept', -⟩ := hb.deferrals hproper howned₁ hrest
      have hfirst := hn hproper' howned hset w (hagrees.left hkept')
      exact .cons hfirst (ih howned₁ hrest (hagrees.right hkept₁))

/-- The set for one more type takes the next numbers, and is stored under the key. -/
theorem Numbers.variant (hn : input.Numbers build numbered) (hb : input.Builds build made)
    {key : SelectionSetId} {sources : List ClausedSet} {path : List PathSegment}
    {optimizers : List (Optimizer σ)} {t : ObjectType}
    (hproper : input.Proper ⟨t, sources, path, optimizers⟩) {v : SelectionVariants}
    (hv : (s.reach key).variants.get? key = some v)
    (howned : (s.reach key).Owned input.document pending loose)
    (h : Runs (compileVariant build key t sources path optimizers) s ⟨⟩ s') :
    ∃ set, s'.variants.get? key = some { v with sets := v.sets.insert t.name set } ∧
      ∀ variants, Agrees (s.reach key) s' variants → numbered variants s.nextId set s'.nextId := by
  obtain ⟨set, s₁, hset, rfl⟩ := runs_compileVariant.1 h
  obtain ⟨-, hkept₁, htype, -⟩ := hb hproper howned hset
  obtain rfl : set.objectType = t := htype
  refine ⟨set, CompileState.get?_store_self set (hkept₁.variants hv), fun variants hagrees => ?_⟩
  have hkey : key ∈ (s.reach key).variants.keys := OrderedMap.mem_keys_iff.2 ⟨v, hv⟩
  have hnumbered := hn hproper howned hset variants
    (hagrees.left_but hkey (CompileState.keptBut_store s₁ key set))
  rw [nextId_reach] at hnumbered
  exact hnumbered

/-- The sets for the types of a position take their numbers one after another. -/
theorem Numbers.variants (hn : input.Numbers build numbered) (hb : input.Builds build made)
    {key : SelectionSetId} {sources : List ClausedSet} {path : List PathSegment}
    {optimizers : List (Optimizer σ)} {ts : List ObjectType}
    (hts : ∀ t ∈ ts, input.Proper ⟨t, sources, path, optimizers⟩)
    (hnodup : (ts.map (·.name)).Nodup) {v v' : SelectionVariants}
    (hnew : ∀ t ∈ ts, t.name ∉ v.sets.keys) (hv : s.variants.get? key = some v)
    (howned : s.Owned input.document pending loose)
    (h : Runs (ts.forM fun t => compileVariant build key t sources path optimizers) s ⟨⟩ s')
    (hv' : s'.variants.get? key = some v') (hagrees : Agrees s s' w) :
    ∃ sets, v'.sets.values = v.sets.values ++ sets ∧
      Threads (numbered w) s.nextId sets s'.nextId := by
  induction ts generalizing s v with
  | nil =>
      obtain rfl := runs_forM_nil.1 h
      obtain rfl : v = v' := Option.some.inj (hv.symm.trans hv')
      exact ⟨[], (List.append_nil _).symm, .nil⟩
  | cons t ts ih =>
      rw [List.map_cons, List.nodup_cons] at hnodup
      rw [List.forall_mem_cons] at hts hnew
      obtain ⟨s₁, hone, hrest⟩ := runs_forM_cons.1 h
      have hkey : key ∈ s.variants.keys := OrderedMap.mem_keys_iff.2 ⟨v, hv⟩
      have hreach : s.reach key = s := CompileState.reach_of_mem hkey
      have hv₀ : (s.reach key).variants.get? key = some v := hreach.symm ▸ hv
      have howned₀ : (s.reach key).Owned input.document pending loose := hreach.symm ▸ howned
      obtain ⟨howned₁, hkept₁, -⟩ := hb.variant hts.1 hnew.1 hv₀ howned₀ hone
      obtain ⟨set, hv₁, hset⟩ := hn.variant hb hts.1 hv₀ howned₀ hone
      rw [hreach] at hkept₁ hset
      have hnew' : ∀ t' ∈ ts, t'.name ∉ (v.sets.insert t.name set).keys := by
        intro t' ht' hmem
        rcases OrderedMap.mem_keys_insert.1 hmem with hname | hmem
        · exact hnodup.1 (hname ▸ List.mem_map_of_mem ht')
        · exact hnew.2 t' ht' hmem
      -- the sets of the other types are stored behind this one
      obtain ⟨-, hkept', -⟩ := hb.variants hts.2 hnodup.2 hnew' hv₁ howned₁ hrest
      obtain ⟨sets, hsets, hthreads⟩ :=
        ih hts.2 hnodup.2 hnew' hv₁ howned₁ hrest (hagrees.right_but hkept₁)
      refine ⟨set :: sets, ?_, .cons (hset w (hagrees.left_but hkey hkept')) hthreads⟩
      rw [hsets, OrderedMap.values, OrderedMap.values,
        OrderedMap.entries_insert_of_notMem set hnew.1, List.map_append, List.append_assoc]
      rfl

/-- All that is below one job takes the next numbers. -/
theorem Numbers.child (hschema : input.schema.WellNamed) (hlawful : input.pipeline.Lawful)
    (hn : input.Numbers build numbered) (hb : input.Builds build made)
    (hproper : input.Proper task) {job : ChildJob}
    (howned : s.Owned input.document (job.key :: pending) loose)
    (h : Runs (input.compileChildren build task.path task.optimizers job) s ⟨⟩ s')
    (hagrees : Agrees s s' w) :
    KeyNumbered w (numbered w) s.nextId job.key s'.nextId := by
  unfold compileChildren at h
  obtain ⟨_, _, hget, h⟩ := runs_bind.1 h
  obtain ⟨hs, hs'⟩ := runs_get.1 hget
  rw [hs, hs'] at h
  dsimp only at h
  obtain ⟨_, s₁, hreached, h⟩ := runs_bind.1 h
  obtain rfl := runs_modify.1 hreached
  obtain ⟨howned₁, hkept₁, hv⟩ := howned.reach
  have hproper' := hproper.child hschema hlawful
    (sourcesOf (s.view input.document) job.occurrences) job
  obtain ⟨-, hkept, _, v', hv', -, -⟩ := hb.variants hproper' (hschema.possibleTypes_nodup _)
    (fun _ _ => List.not_mem_nil) hv howned₁ h
  obtain ⟨sets, hsets, hthreads⟩ := hn.variants hb hproper' (hschema.possibleTypes_nodup _)
    (fun _ _ => List.not_mem_nil) hv howned₁ h hv' (hagrees.right hkept₁)
  -- the key was pending, so all that stands under it is new
  have hnew : job.key ∉ s.variants.keys := howned.notMem_keys List.mem_cons_self
  rw [nextId_reach] at hthreads
  refine ⟨v', hagrees hv' hnew, ?_⟩
  rw [hsets]
  exact hthreads

/-- All that is below the jobs takes its numbers job by job. -/
theorem Numbers.children (hschema : input.schema.WellNamed) (hlawful : input.pipeline.Lawful)
    (hn : input.Numbers build numbered) (hb : input.Builds build made)
    (hproper : input.Proper task) {jobs : List ChildJob}
    (howned : s.Owned input.document (jobs.map (·.key) ++ pending) loose)
    (h : Runs (jobs.forM (input.compileChildren build task.path task.optimizers)) s ⟨⟩ s')
    (hagrees : Agrees s s' w) :
    Threads (KeyNumbered w (numbered w)) s.nextId (jobs.map (·.key))
      s'.nextId := by
  induction jobs generalizing s with
  | nil =>
      obtain rfl := runs_forM_nil.1 h
      exact .nil
  | cons job jobs ih =>
      obtain ⟨s₁, hone, hrest⟩ := runs_forM_cons.1 h
      obtain ⟨howned₁, hkept₁, -⟩ := hb.child hschema hlawful hproper howned hone
      obtain ⟨-, hkept', -⟩ := hb.children hschema hlawful hproper howned₁ hrest
      have hfirst := hn.child hschema hlawful hb hproper howned hone (hagrees.left hkept')
      exact .cons hfirst (ih howned₁ hrest (hagrees.right hkept₁))

end Loops

/-- One level of a build hands out its numbers in order, if the builds below it do. -/
theorem numbers_succ (hschema : input.schema.WellNamed) (hlawful : input.pipeline.Lawful)
    {fuel : Nat}
    (hn : input.Numbers (input.build fuel) fun variants => NumberedWithin variants fuel) :
    input.Numbers (input.build (fuel + 1)) fun variants => NumberedWithin variants (fuel + 1) := by
  intro task pending loose s set s' hproper howned h variants hagrees
  have hb := builds hschema hlawful fuel
  obtain ⟨-, hrevised₁, howned₁, hdeferred, hkept₂, -, hrevised₃, -, -, hfinish, howned₄,
    hkept₄, hjobs, hkept'⟩ := stages_of_runs hschema hlawful hb hproper howned h
  rename_i s₁ s₂ s₃ s₄ c m deferred selections jobs
  have hkept₃ : s₂.Kept s' := (hrevised₃.kept.trans hkept₄).trans hkept'
  have hkept : s.Kept s₄ := (hrevised₁.kept.trans hkept₂).trans (hrevised₃.kept.trans hkept₄)
  -- only the builds below and the finishing in between move the counter
  have hdeferrals := hn.deferrals hb hproper howned₁ hdeferred
    ((hagrees.left hkept₃).right hrevised₁.kept)
  obtain ⟨hids, hnext, hkeys⟩ := numbered_finish hfinish
  have hchildren := hn.children hschema hlawful hb hproper howned₄ hjobs (hagrees.right hkept)
  rw [nextId_of_revised hrevised₁] at hdeferrals
  rw [nextId_of_revised hrevised₃] at hids hnext
  rw [hnext, hkeys] at hchildren
  exact .mk hdeferrals hids hchildren

/-- Whatever depth it may go to, a build hands out its numbers in order. -/
theorem numbers (hschema : input.schema.WellNamed) (hlawful : input.pipeline.Lawful)
    (fuel : Nat) :
    input.Numbers (input.build fuel) fun variants => NumberedWithin variants fuel := by
  induction fuel with
  | zero => exact fun _ _ _ _ _ _ _ _ h => absurd h not_runs_throw
  | succ fuel ih => exact numbers_succ hschema hlawful ih

/-- The selections of a compiled plan take the numbers from zero to their count. -/
theorem numbered_of_compileWithin (hschema : input.schema.Built)
    (hdocument : input.document.Built) (hlawful : input.pipeline.Lawful) {bound : Nat}
    {name : Option String} {memory memory' : σ} {p : Plan}
    (h : input.compileWithin bound name memory = (.ok p, memory')) :
    KeyNumbered p.variants (NumberedWithin p.variants bound) 0 p.root p.selectionCount := by
  obtain ⟨operation, rootType, s, hoperation, hrootType, hrun, rfl, -⟩ :=
    compileWithin_eq_ok_iff.1 h
  have hnamed := hschema.wellNamed
  have hroot := hdocument.closed.operation operation (Document.operation_mem hoperation)
  obtain ⟨howned, -, hv⟩ := (owned_start hdocument.closed memory hroot).reach
  have hproper : input.Proper (input.rootTask operation.selectionSet rootType) :=
    ⟨hnamed.objectType?_of_rootType hrootType, hlawful.general⟩
  obtain ⟨set, hv', hset⟩ := (numbers hnamed hlawful bound).variant
    (builds hnamed hlawful bound) hproper hv howned hrun
  exact ⟨_, hv', .cons (hset _ fun _ _ hw _ => hw) .nil⟩

end CompileInput

end QueryPlan
