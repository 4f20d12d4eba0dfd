import QueryPlan.Proofs.Plan.Alike
import QueryPlan.Proofs.Plan.Compiles
import QueryPlan.Proofs.Plan.Terminates

/-!
# Sources that come to the same

Two documents may say the same operation in different words. Which sources of the one come to the
same as which of the other is a relation on sources; it is enough to know of it that what is found
in related sources corresponds, key by key and fragment by fragment, and leads to sources that are
related again (`Setting.Corresponds`). Then compilations that start from related sources cannot
tell the difference: where one comes to an end, so does the other (`succeeds_of_made`), and what
both have made is alike (`alikeWithin_of_made`). Both are inductions over what was made, level by
level.
-/

set_option autoImplicit false

namespace QueryPlan

variable {σ : Type} {S : List ClausedSet → List ClausedSet → Prop}

/-! ## What corresponds -/

/-- The occurrences of two response keys come to the same: the first ones say the same, all of them
make up the same condition, and their sub-selections are related. -/
structure FoundField.Corresponds (S : List ClausedSet → List ClausedSet → Prop) (o : FoundField)
    (os : List FoundField) (o' : FoundField) (os' : List FoundField) : Prop where
  field : o.field = o'.field
  arguments : o.node.arguments = o'.node.arguments
  inner : o.node.selectionSet.isSome = o'.node.selectionSet.isSome
  condition : (CollectedField.ofFound o os).condition = (CollectedField.ofFound o' os').condition
  sources : S ((o :: os).filterMap (·.source?)) ((o' :: os').filterMap (·.source?))

/-- The deferred fragments have the same head, and related selections. -/
structure PendingDeferral.Corresponds (S : List ClausedSet → List ClausedSet → Prop)
    (d d' : PendingDeferral) : Prop where
  directive : d.directive = d'.directive
  clause : d.clause = d'.clause
  typeCondition : d.typeCondition = d'.typeCondition
  sources : S [⟨d.selectionSet, .always⟩] [⟨d'.selectionSet, .always⟩]

/-- What was found comes to the same. -/
structure Corresponding (S : List ClausedSet → List ClausedSet → Prop) (fs fs' : List Found) :
    Prop where
  keys : (Collected.empty.mergeAll fs).fields.keys = (Collected.empty.mergeAll fs').fields.keys
  occurrences : ∀ {key o os o' os'}, occurrencesAt key fs = o :: os →
    occurrencesAt key fs' = o' :: os' → o.Corresponds S os o' os'
  deferrals : List.Forall₂ (PendingDeferral.Corresponds S) (fs.filterMap Found.deferral?)
    (fs'.filterMap Found.deferral?)

/-- Related sources come to the same: either can be read where the other can, and what is found in
them corresponds. -/
structure Setting.Corresponds (g g' : Setting) (S : List ClausedSet → List ClausedSet → Prop) :
    Prop where
  schema : g.schema = g'.schema
  found : ∀ {t cs cs' fs fs'}, S cs cs' → g.FlattensAll t (· = true) cs fs →
    g'.FlattensAll t (· = true) cs' fs' → Corresponding S fs fs'
  readable : ∀ {t cs cs'}, S cs cs' →
    (∀ c ∈ cs, g.Readable t (g.view.selectionsOf c.selectionSet)) →
    ∀ c' ∈ cs', g'.Readable t (g'.view.selectionsOf c'.selectionSet)
  readable' : ∀ {t cs cs'}, S cs cs' →
    (∀ c' ∈ cs', g'.Readable t (g'.view.selectionsOf c'.selectionSet)) →
    ∀ c ∈ cs, g.Readable t (g.view.selectionsOf c.selectionSet)

/-- The tasks are for the same type, and their sources are related. -/
structure BuildTask.Corresponds (S : List ClausedSet → List ClausedSet → Prop)
    (task task' : BuildTask σ) : Prop where
  objectType : task.objectType = task'.objectType
  sources : S task.sources task'.sources

/-- The operations have the same head, and related selections. -/
structure OperationNode.Corresponds (S : List ClausedSet → List ClausedSet → Prop)
    (o o' : OperationNode) : Prop where
  name : o.name = o'.name
  kind : o.kind = o'.kind
  head : o.head = o'.head
  sources : S [⟨o.selectionSet, .always⟩] [⟨o'.selectionSet, .always⟩]

theorem FoundField.Corresponds.symm {o o' : FoundField} {os os' : List FoundField}
    (h : o.Corresponds S os o' os') : o'.Corresponds (flip S) os' o os :=
  ⟨h.field.symm, h.arguments.symm, h.inner.symm, h.condition.symm, h.sources⟩

theorem PendingDeferral.Corresponds.symm {d d' : PendingDeferral} (h : d.Corresponds S d') :
    d'.Corresponds (flip S) d :=
  ⟨h.directive.symm, h.clause.symm, h.typeCondition.symm, h.sources⟩

theorem Corresponding.symm {fs fs' : List Found} (h : Corresponding S fs fs') :
    Corresponding (flip S) fs' fs :=
  ⟨h.keys.symm, fun hocc' hocc => (h.occurrences hocc hocc').symm,
    h.deferrals.flip.imp fun _ _ hd => hd.symm⟩

theorem Setting.Corresponds.symm {g g' : Setting} (h : g.Corresponds g' S) :
    g'.Corresponds g (flip S) :=
  ⟨h.schema.symm, fun hs hfs' hfs => (h.found hs hfs hfs').symm, h.readable', h.readable⟩

theorem OperationNode.Corresponds.symm {o o' : OperationNode} (h : o.Corresponds S o') :
    o'.Corresponds (flip S) o :=
  ⟨h.name.symm, h.kind.symm, h.head.symm, h.sources⟩

/-- Under the same keys something was found. -/
theorem Corresponding.exists_occurrences {fs fs' : List Found} (h : Corresponding S fs fs')
    {key : String} {o' : FoundField} {os' : List FoundField}
    (hocc' : occurrencesAt key fs' = o' :: os') :
    ∃ o os, occurrencesAt key fs = o :: os ∧ o.Corresponds S os o' os' := by
  have hkey : key ∈ (Collected.empty.mergeAll fs').fields.keys :=
    OrderedMap.mem_keys_iff.2 ⟨_, Collected.get?_collected_iff.2 ⟨o', os', hocc', rfl⟩⟩
  rw [← h.keys, OrderedMap.mem_keys_iff] at hkey
  obtain ⟨_, hf⟩ := hkey
  obtain ⟨o, os, hocc, -⟩ := Collected.get?_collected_iff.1 hf
  exact ⟨o, os, hocc, h.occurrences hocc hocc'⟩

/-! ## Heads -/

theorem Selection.head_congr {s s' : Selection} (hkey : s.responseKey = s'.responseKey)
    (hfield : s.field = s'.field) (harguments : s.arguments = s'.arguments)
    (hcondition : s.condition = s'.condition) (hinternal : s.internal = s'.internal) :
    s.head = s'.head := by
  rw [head, head, label, label, hkey, hfield, harguments, hcondition, hinternal]

theorem PendingDeferral.Corresponds.head_eq {d d' : PendingDeferral} (h : d.Corresponds S d')
    (set set' : SelectionSet) : (d.finish set).head = (d'.finish set').head := by
  unfold DeferredFragment.head PendingDeferral.finish
  rw [h.directive, h.clause, h.typeCondition]

namespace CompileInput

/-! ## Compiling without optimizers -/

/-- A built document is compiled with its own index. -/
structure Indexed (input : CompileInput σ) : Prop where
  document : input.document.Built
  fragments : FragmentIndex.build input.document = .ok input.fragments

/-- A built document is compiled with its own index, and without optimizers. -/
structure Plain (input : CompileInput σ) : Prop where
  document : input.document.Built
  fragments : FragmentIndex.build input.document = .ok input.fragments
  pipeline : input.pipeline = .empty

/-- The sources are selection sets of the document, and there are no optimizers. -/
structure PlainTask (input : CompileInput σ) (task : BuildTask σ) : Prop where
  has : ∀ c ∈ task.sources, input.document.Has c.selectionSet
  optimizers : task.optimizers = []

variable {input input' : CompileInput σ} {task task' : BuildTask σ} {fs fs' : List Found}
  {p p' : Plan} {n : Nat} {set set' : SelectionSet}

theorem Indexed.within (h : input.Indexed) : input.fragments.Within input.document :=
  FragmentIndex.within_of_build h.document.closed h.fragments

theorem Plain.indexed (h : input.Plain) : input.Indexed := ⟨h.document, h.fragments⟩

theorem Plain.below (h : input.Plain) (t : ObjectType) (field : String) :
    input.pipeline.below t field = [] := by
  rw [h.pipeline]
  rfl

theorem PlainTask.passive (h : input.PlainTask task) : ∀ o ∈ task.optimizers, o.Passive := by
  rw [h.optimizers]
  exact List.forall_mem_nil _

/-- Where no optimizer is asked, a fragment is always deferred. -/
theorem PlainTask.answers (h : input.PlainTask task) (context : PlanContext)
    (s : CompileState σ) : (input.scope context task.optimizers s).Answers (· = true) := by
  rw [h.optimizers]
  exact ⟨fun _ _ _ => rfl, fun _ _ => rfl⟩

theorem PlainTask.deferral (h : input.PlainTask task) {d : PendingDeferral}
    (hd : input.document.Has d.selectionSet) : input.PlainTask (task.deferral d) := by
  refine ⟨fun c hc => ?_, h.optimizers⟩
  rw [List.mem_singleton.1 hc]
  exact hd

theorem PlainTask.sub (hindexed : input.Indexed) (h : input.PlainTask task)
    (hwithin : ∀ f ∈ fs, f.Within input.document) {key : String} {os : List FoundField}
    (hocc : occurrencesAt key fs = os) (field : Field)
    (hbelow : input.pipeline.below task.objectType field.name = []) (t : ObjectType) :
    input.PlainTask (input.subTask task os key field t) := by
  refine ⟨fun c hc => ?_, ?_⟩
  · obtain ⟨o, ho, -, hinner⟩ := mem_subTask_sources.1 hc
    have hnode : input.document.syntaxArena.field? o.node.id = some o.node :=
      hwithin _ (mem_occurrencesAt.1 (hocc ▸ ho)).1
    exact hindexed.document.closed.has_of_field hnode hinner
  · rw [subTask, h.optimizers, hbelow]
    rfl

/-- What was made without optimizers lists what was found, and defers all that can be. -/
theorem PlainTask.listed (hindexed : input.Indexed) (h : input.PlainTask task)
    (hmade : input.MadeWithin p.variants (n + 1) task set) :
    ∃ fs, input.Listed p.variants (input.MadeWithin p.variants n) task (· = true) fs set :=
  Made.listed hindexed.document.closed hindexed.within h.passive (h.answers _) h.has hmade

theorem PlainTask.deferrals (h : input.PlainTask task)
    (hl : input.Listed p.variants (input.MadeWithin p.variants n) task (· = true) fs set) :
    List.Forall₂ (fun d e => input.PlainTask (task.deferral d) ∧
      ∃ sub, input.MadeWithin p.variants n (task.deferral d) sub ∧ e = d.finish sub)
      (fs.filterMap Found.deferral?) set.deferred := by
  refine (List.forall₂_and_left _ _).2 ⟨fun d hd => h.deferral ?_, hl.deferred⟩
  exact hl.within _ (mem_deferrals_iff.1 hd)

/-! ## What was made is alike -/

/-- Selections of occurrences that come to the same have the same head. -/
theorem SelectionOf.head_eq {below below' : BuildTask σ → SelectionSet → Prop}
    {o o' : FoundField} {os os' : List FoundField} {s s' : Selection}
    (h : input.SelectionOf p.variants below task o os s)
    (h' : input'.SelectionOf p'.variants below' task' o' os' s') (ho : o.Corresponds S os o' os')
    (hkey : s.responseKey = s'.responseKey)
    (harguments : s.arguments = o.node.arguments) (harguments' : s'.arguments = o'.node.arguments)
    (hinternal : s.internal = false) (hinternal' : s'.internal = false) : s.head = s'.head := by
  refine Selection.head_congr hkey ?_ ?_ ?_ ?_
  · rw [h.field, h'.field, ho.field]
  · rw [harguments, harguments', ho.arguments]
  · rw [h.condition, h'.condition, ho.condition]
  · rw [hinternal, hinternal']

/-- Selections of occurrences that come to the same own keys under which what stands is alike, if
what was made for their sub-selections is. -/
theorem SelectionOf.rel_keys {below below' : BuildTask σ → SelectionSet → Prop}
    {sets : SelectionSet → SelectionSet → Prop} (hschema : input.schema = input'.schema)
    {o o' : FoundField} {os os' : List FoundField} {s s' : Selection}
    (h : input.SelectionOf p.variants below task o os s)
    (h' : input'.SelectionOf p'.variants below' task' o' os' s') (ho : o.Corresponds S os o' os')
    (hbelow : ∀ t set set', below (input.subTask task (o :: os) s.responseKey o.field t) set →
      below' (input'.subTask task' (o' :: os') s'.responseKey o'.field t) set' → sets set set') :
    Option.Rel (p.AlikeAt p' sets) s.selectionSet s'.selectionSet := by
  have hinner := ho.inner
  cases hset : o.node.selectionSet with
  | none =>
      rw [hset, Option.isSome_none, eq_comm, Option.isSome_eq_false_iff, Option.isNone_iff_eq_none]
        at hinner
      rw [h.leaf hset, h'.leaf hinner]
      exact .none
  | some inner =>
      rw [hset, Option.isSome_some, eq_comm, Option.isSome_iff_exists] at hinner
      obtain ⟨inner', hset'⟩ := hinner
      obtain ⟨key, v, hkey, hv, hforall⟩ := h.inner hset
      obtain ⟨key', v', hkey', hv', hforall'⟩ := h'.inner hset'
      rw [← hschema, ← ho.field] at hforall'
      rw [hkey, hkey']
      refine .some ⟨v, v', hv, hv', (forall₂_comp hforall.flip hforall').imp ?_⟩
      rintro e e' ⟨t, ⟨hname, hmade⟩, hname', hmade'⟩
      rw [ho.field] at hmade'
      exact ⟨hname.trans hname'.symm, hbelow t e.2 e'.2 hmade hmade'⟩

section Settings

variable (hg : input.setting.Corresponds input'.setting S)

include hg

theorem found_corresponding (hm : task.Corresponds S task')
    (hfs : input.setting.FlattensAll task.objectType (· = true) task.sources fs)
    (hfs' : input'.setting.FlattensAll task'.objectType (· = true) task'.sources fs') :
    Corresponding S fs fs' := by
  rw [← hm.objectType] at hfs'
  exact hg.found hm.sources hfs hfs'

/-- **What was made for tasks that correspond is alike.** -/
theorem alikeWithin_of_made (hplain : input.Plain) (hplain' : input'.Plain)
    (htask : input.PlainTask task) (htask' : input'.PlainTask task')
    (hm : task.Corresponds S task') (h : input.MadeWithin p.variants n task set)
    (h' : input'.MadeWithin p'.variants n task' set') : p.AlikeWithin p' n set set' := by
  induction n generalizing task task' set set' with
  | zero => exact h.elim
  | succ n ih =>
      obtain ⟨fs, hl⟩ := htask.listed hplain.indexed h
      obtain ⟨fs', hl'⟩ := htask'.listed hplain'.indexed h'
      have hall := found_corresponding hg hm hl.flattens hl'.flattens
      constructor
      · have hboth := forall₂_comp hl.selections.flip (hall.keys ▸ hl'.selections)
        refine hboth.imp ?_
        rintro s s' ⟨key, ⟨hkey, o, os, hocc, ⟨_, hdraft⟩, hof⟩, hkey', o', os', hocc',
          ⟨_, hdraft'⟩, hof'⟩
        have ho := hall.occurrences hocc hocc'
        refine ⟨hof.head_eq hof' ho (hkey.trans hkey'.symm) (by rw [hdraft]; rfl)
          (by rw [hdraft']; rfl) (by rw [hdraft]; rfl) (by rw [hdraft']; rfl),
          hof.rel_keys hg.schema hof' ho fun t sub sub' hmade hmade' => ?_⟩
        rw [hkey] at hmade
        rw [hkey'] at hmade'
        exact ih (htask.sub hplain.indexed hl.within hocc _ (hplain.below _ _) t)
          (htask'.sub hplain'.indexed hl'.within hocc' _ (hplain'.below _ _) t)
          ⟨rfl, ho.sources⟩ hmade hmade'
      · have hboth := forall₂_comp (forall₂_comp (htask.deferrals hl).flip hall.deferrals)
          (htask'.deferrals hl')
        refine hboth.imp ?_
        rintro e e' ⟨d', ⟨d, ⟨hsub, sub, hmade, rfl⟩, hd⟩, hsub', sub', hmade', rfl⟩
        exact ⟨hd.head_eq sub sub', ih hsub hsub' ⟨hm.objectType, hd.sources⟩ hmade hmade'⟩

omit hg

/-! ## Where one compilation comes to an end, so does the other -/

/-- What has been made could be read. -/
theorem readable_of_made (hplain : input.Plain) (htask : input.PlainTask task)
    (h : input.MadeWithin p.variants n task set) {c : ClausedSet} (hc : c ∈ task.sources) :
    input.setting.Readable task.objectType (input.setting.view.selectionsOf c.selectionSet) := by
  induction n generalizing task set c with
  | zero => exact h.elim
  | succ n ih =>
      obtain ⟨fs, hl⟩ := htask.listed hplain.indexed h
      obtain ⟨fs', hfs', hsub⟩ := hl.flattens.of_mem hc
      -- what was set aside was made too
      refine hfs'.readable fun d hd => ?_
      obtain ⟨e, -, hplainTask, sub, hmade, -⟩ :=
        exists_of_mem_left (htask.deferrals hl) (mem_deferrals_iff.2 (hsub hd))
      exact ih hplainTask hmade (List.mem_singleton_self _)

include hg

/-- **What was made for a task can be built for one that corresponds.** -/
theorem succeeds_of_made (hplain : input.Plain) (hplain' : input'.Plain)
    (htask : input.PlainTask task) (htask' : input'.PlainTask task')
    (hm : task.Corresponds S task') (h : input.MadeWithin p.variants n task set) :
    Succeeds (perform (input'.build n) task') := by
  induction n generalizing task task' set with
  | zero => exact h.elim
  | succ n ih =>
      obtain ⟨fs, hl⟩ := htask.listed hplain.indexed h
      have hcollect : Succeeds (input'.collect (input'.contextOf task') task'.optimizers
          task'.sources) := by
        refine succeeds_collect hplain'.document.closed hplain'.fragments fun c' hc' =>
          ⟨htask'.has c' hc', ?_⟩
        exact hm.objectType ▸ hg.readable hm.sources
          (fun c hc => readable_of_made hplain htask h hc) c' hc'
      refine succeeds_perform hplain'.document.closed hplain'.indexed.within htask'.has hcollect
        htask'.passive (htask'.answers _) (fun {fs' d'} hfs' hwithin' hd' => ?_) ?_
      · have hall := found_corresponding hg hm hl.flattens hfs'
        obtain ⟨d, hd, hsame⟩ := exists_of_mem_right hall.deferrals (mem_deferrals_iff.2 hd')
        obtain ⟨e, -, hsub, sub, hmade, -⟩ := exists_of_mem_left (htask.deferrals hl) hd
        exact ih hsub (htask'.deferral (hwithin' _ hd')) ⟨hm.objectType, hsame.sources⟩ hmade
      · intro fs' key o' os' job hfs' hwithin' hocc' hinner' hjob
        obtain ⟨o, os, hocc, ho⟩ :=
          (found_corresponding hg hm hl.flattens hfs').exists_occurrences hocc'
        refine succeeds_compileChildren hwithin' hocc' hjob fun t ht => ?_
        -- the selection of these occurrences has been made, and what is below it
        obtain ⟨s, hs, hkey⟩ := hl.spelled.exists_selection (hocc ▸ List.cons_ne_nil o os)
        obtain ⟨o₁, os₁, hocc₁, hof⟩ := hl.spelled.selection s hs
        rw [hkey, hocc, List.cons.injEq] at hocc₁
        obtain ⟨rfl, rfl⟩ := hocc₁
        have hsome : o.node.selectionSet.isSome := by
          rw [ho.inner]
          exact Option.isSome_iff_ne_none.2 hinner'
        obtain ⟨inner, hinner⟩ := Option.isSome_iff_exists.1 hsome
        obtain ⟨_, v, -, -, hforall⟩ := hof.inner hinner
        have hschema : input.schema = input'.schema := hg.schema
        rw [← hschema, ← ho.field] at ht
        obtain ⟨e, -, -, hmade⟩ := exists_of_mem_left hforall ht
        exact ih (htask.sub hplain.indexed hl.within hocc _ (hplain.below _ _) t)
          (htask'.sub hplain'.indexed hwithin' hocc' _ (hplain'.below _ _) t)
          ⟨rfl, ho.sources⟩ (hkey ▸ hmade)

end Settings

end CompileInput

/-! ## Operations -/

/-- Operations that go in step are found by the same name. -/
theorem Document.exists_operation {d d' : Document} {R : OperationNode → OperationNode → Prop}
    (hR : ∀ o o', R o o' → o.name = o'.name) (h : List.Forall₂ R d.operations d'.operations)
    {name : Option String} {o : OperationNode} (ho : d.operation name = .ok o) :
    ∃ o', d'.operation name = .ok o' ∧ R o o' := by
  unfold operation at ho ⊢
  cases name with
  | none =>
      dsimp only at ho ⊢
      generalize d.operations = os, d'.operations = os' at h ho
      cases h with
      | nil => cases ho
      | cons hone hrest =>
          cases hrest with
          | nil =>
              cases ho
              exact ⟨_, rfl, hone⟩
          | cons _ _ => cases ho
  | some n =>
      have hrel : Option.Rel R (d.operations.find? fun o => o.name = some n)
          (d'.operations.find? fun o => o.name = some n) :=
        rel_find? h fun o o' hone => by rw [hR o o' hone]
      dsimp only at ho ⊢
      generalize d.operations.find? (fun o => o.name = some n) = found,
        d'.operations.find? (fun o => o.name = some n) = found' at hrel ho
      cases hrel with
      | none => cases ho
      | some hone =>
          cases ho
          exact ⟨_, rfl, hone⟩

namespace CompileInput

variable {input input' : CompileInput σ} {p p' : Plan} {name : Option String} {bound : Nat}
  {memory memory' memory'' : σ}

theorem Plain.lawful (h : input.Plain) : input.pipeline.Lawful := by
  rw [h.pipeline]
  exact Pipeline.passive_empty.lawful

theorem Plain.thins (h : input.Plain) : input.pipeline.Thins := by
  rw [h.pipeline]
  exact Pipeline.passive_empty.thins

theorem Plain.rootTask (h : input.Plain) {o : OperationNode}
    (ho : input.document.operation name = .ok o) (rootType : ObjectType) :
    input.PlainTask (input.rootTask o.selectionSet rootType) := by
  refine ⟨fun c hc => ?_, ?_⟩
  · rw [List.mem_singleton.1 hc]
    exact h.document.closed.operation o (Document.operation_mem ho)
  · rw [CompileInput.rootTask, h.pipeline]
    rfl

section Settings

variable (hplain : input.Plain) (hplain' : input'.Plain) (hbuilt : input.schema.Built)
  (hg : input.setting.Corresponds input'.setting S)
  (hoperations : List.Forall₂ (OperationNode.Corresponds S) input.document.operations
    input'.document.operations)

include hplain hplain' hbuilt hg hoperations

/-- An operation compiles if one that corresponds does. -/
theorem exists_plan_of_corresponds
    (h : input.compileWithin bound name memory = (.ok p, memory')) :
    ∃ p' memory', input'.compileWithin bound name memory = (.ok p', memory') := by
  have hschema : input.schema = input'.schema := hg.schema
  have hcompiled := compiled_of_compileWithin hbuilt hplain.document hplain.lawful h
  obtain ⟨v, set, -, -, hmade⟩ := hcompiled.root
  obtain ⟨o', ho', hm⟩ := Document.exists_operation (fun _ _ h => h.name) hoperations
    hcompiled.operation
  have hrootType := hcompiled.rootType
  rw [hschema, hm.kind] at hrootType
  have hbuild := succeeds_of_made hg hplain hplain'
    (hplain.rootTask hcompiled.operation p.rootType) (hplain'.rootTask ho' p.rootType)
    ⟨rfl, hm.sources⟩ hmade
  obtain ⟨set', s, hset'⟩ := hbuild ((input'.start o'.selectionSet memory).reach o'.selectionSet)
  exact ⟨_, _, compileWithin_eq_ok_iff.2 ⟨o', p.rootType, _, ho', hrootType,
    runs_compileVariant.2 ⟨set', s, hset', rfl⟩, rfl, rfl⟩⟩

/-- Plans of operations that correspond are alike from the root on. -/
theorem alikeAt_of_corresponds
    (h : input.compileWithin bound name memory = (.ok p, memory'))
    (h' : input'.compileWithin bound name memory = (.ok p', memory'')) :
    p.operation.head = p'.operation.head ∧
      p.AlikeAt p' (p.AlikeWithin p' bound) p.root p'.root := by
  have hschema : input.schema = input'.schema := hg.schema
  have hcompiled := compiled_of_compileWithin hbuilt hplain.document hplain.lawful h
  have hcompiled' :=
    compiled_of_compileWithin (hschema ▸ hbuilt) hplain'.document hplain'.lawful h'
  obtain ⟨v, set, hv, hentries, hmade⟩ := hcompiled.root
  obtain ⟨v', set', hv', hentries', hmade'⟩ := hcompiled'.root
  obtain ⟨o', ho', hm⟩ := Document.exists_operation (fun _ _ h => h.name) hoperations
    hcompiled.operation
  obtain rfl : o' = p'.operation := Except.ok.inj (ho'.symm.trans hcompiled'.operation)
  have hrootType : p.rootType = p'.rootType := by
    have hroot := hcompiled.rootType
    rw [hschema, hm.kind, hcompiled'.rootType, Option.some_inj] at hroot
    exact hroot.symm
  have halike := alikeWithin_of_made hg hplain hplain'
    (hplain.rootTask hcompiled.operation p.rootType) (hplain'.rootTask ho' p'.rootType)
    ⟨hrootType, hm.sources⟩ hmade hmade'
  refine ⟨hm.head, v, v', hv, hv', ?_⟩
  rw [hentries, hentries', hrootType]
  exact .cons ⟨rfl, halike⟩ .nil

/-- Operations that correspond compile to plans that print the same and count as many
selections. -/
theorem print_eq_of_corresponds
    (h : input.compileWithin bound name memory = (.ok p, memory'))
    (h' : input'.compileWithin bound name memory = (.ok p', memory'')) :
    p.print = p'.print ∧ p.selectionCount = p'.selectionCount := by
  have hschema : input.schema = input'.schema := hg.schema
  have hbuilt' : input'.schema.Built := hschema ▸ hbuilt
  obtain ⟨hhead, hroots⟩ := alikeAt_of_corresponds hplain hplain' hbuilt hg hoperations h h'
  -- with as much fuel as both plans need
  let fuel := max bound (max p.variants.size p'.variants.size)
  obtain ⟨hmet, hlines⟩ := walk_eq_of_compileWithin hbuilt hplain.document hplain.lawful h
    (fuel + 1) (by omega)
  obtain ⟨hmet', hlines'⟩ := walk_eq_of_compileWithin hbuilt' hplain'.document hplain'.lawful h'
    (fuel + 1) (by omega)
  constructor
  · have heq : p.variantLines (fuel + 1) 1 p.root = p'.variantLines (fuel + 1) 1 p'.root :=
      hroots.variantLines_eq (fun _ _ depth hset => hset.lines_eq (by omega) depth) 1
    rw [hlines, hlines'] at heq
    rw [Plan.print, Plan.print, Plan.lines, Plan.lines, heq, hhead]
  · have heq : (p.met (fuel + 1) p.root).map Selection.head =
        (p'.met (fuel + 1) p'.root).map Selection.head :=
      hroots.map_head_met_eq fun _ _ hset => hset.map_head_met_eq (by omega)
    rw [hmet, hmet'] at heq
    have hcount := (met_perm_of_compileWithin hbuilt hplain.document hplain.lawful h).length_eq
    have hcount' :=
      (met_perm_of_compileWithin hbuilt' hplain'.document hplain'.lawful h').length_eq
    rw [List.length_map, List.length_range] at hcount hcount'
    calc p.selectionCount = ((p.metBelow p.root).map Selection.head).length := by
          rw [List.length_map, hcount]
      _ = ((p'.metBelow p'.root).map Selection.head).length := by rw [heq]
      _ = p'.selectionCount := by rw [List.length_map, hcount']

end Settings

/-- **Operations that correspond have the same outcome.** Without optimizers one compiles exactly
if the other does, to plans that print the same and count as many selections. -/
theorem compile_corresponds (hplain : input.Plain) (hplain' : input'.Plain)
    (hbuilt : input.schema.Built) (hg : input.setting.Corresponds input'.setting S)
    (hoperations : List.Forall₂ (OperationNode.Corresponds S) input.document.operations
      input'.document.operations) (name : Option String) (memory : σ) :
    ((∃ p m, input.compile name memory = (.ok p, m)) ↔
      ∃ p m, input'.compile name memory = (.ok p, m)) ∧
    ∀ p p' m m', input.compile name memory = (.ok p, m) →
      input'.compile name memory = (.ok p', m') →
      p.print = p'.print ∧ p.selectionCount = p'.selectionCount := by
  -- both are compiled with the same bound
  let bound := max input.nestingBound input'.nestingBound
  have hbound : input.compile name memory = input.compileWithin bound name memory :=
    (compileWithin_eq_of_lt hplain.document hplain.fragments hplain.thins
      input.size_lt_nestingBound
      (input.size_lt_nestingBound.trans_le (Nat.le_max_left _ _)) name memory).1
  have hbound' : input'.compile name memory = input'.compileWithin bound name memory :=
    (compileWithin_eq_of_lt hplain'.document hplain'.fragments hplain'.thins
      input'.size_lt_nestingBound
      (input'.size_lt_nestingBound.trans_le (Nat.le_max_right _ _)) name memory).1
  have hschema : input.schema = input'.schema := hg.schema
  rw [hbound, hbound']
  refine ⟨⟨?_, ?_⟩, fun p p' m m' hp hp' => ?_⟩
  · rintro ⟨p, m, hp⟩
    exact exists_plan_of_corresponds hplain hplain' hbuilt hg hoperations hp
  · rintro ⟨p', m', hp'⟩
    exact exists_plan_of_corresponds hplain' hplain (hschema ▸ hbuilt) hg.symm
      (hoperations.flip.imp fun _ _ hm => hm.symm) hp'
  · exact print_eq_of_corresponds hplain hplain' hbuilt hg hoperations hp hp'

end CompileInput

end QueryPlan
