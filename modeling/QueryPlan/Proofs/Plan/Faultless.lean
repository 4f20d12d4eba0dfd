import QueryPlan.Proofs.Plan.Corresponding
import QueryPlan.Proofs.Plan.Reach

/-!
# What keeps an operation from compiling

Without optimizers an operation compiles exactly if every selection that is reached is faultless
(`compile_ok_iff_faultless`). The sources of every set that is built have been reached
(`CompileInput.Arrives`). So where all is faultless the build succeeds, level by level; and where a
plan was made it has visited all that is reached (`CompileInput.Visits`), by induction over the
way.
-/

set_option autoImplicit false

namespace QueryPlan

variable {σ : Type}

namespace CompileInput

variable {input : CompileInput σ} {rootType t : ObjectType} {root set : SelectionSetId}
  {path : Setting.ResponsePath} {ds : List DirectiveNode} {task : BuildTask σ} {fs : List Found}

theorem has_of_reaches (hplain : input.Plain) (hroot : input.document.Has root)
    (h : input.setting.Reaches rootType root path t ds set) : input.document.Has set := by
  have hd := hplain.document.closed
  have hfragment : ∀ {t set sel use}, input.document.Has set →
      sel ∈ input.setting.view.selectionsOf set → input.setting.Opens t sel use →
      input.document.Has use.selectionSet := by
    intro t set sel use hset hsel hopens
    have hresolves := hd.resolves_selectionsOf rfl hset sel hsel
    exact (hopens.transfer (w := input.document.view) hd hplain.indexed.within rfl rfl hresolves).2
  induction h with
  | root => exact hroot
  | entered _ hsel hopens _ ih => exact hfragment ih hsel hopens
  | deferred _ hsel hopens _ ih => exact hfragment ih hsel hopens
  | inner _ hsel hn _ hinner _ _ ih =>
      have hresolves := hd.resolves_selectionsOf rfl ih _ hsel
      exact hd.has_of_field (SyntaxView.field?_of_resolves hresolves rfl hn) hinner

/-- Where all is faultless, whatever is reached can be read: fragments do not stand inside
themselves. -/
theorem readable_of_reaches (hplain : input.Plain) (hroot : input.document.Has root)
    (hall : input.setting.AllFaultless rootType root)
    (h : input.setting.Reaches rootType root path t ds set) :
    input.setting.Readable t (input.setting.view.selectionsOf set) := by
  have hd := hplain.document.closed
  obtain ⟨rank, hranks, -⟩ := FragmentIndex.exists_ranks hd hplain.fragments
  induction hrank : rank set using Nat.strongRecOn generalizing set ds with
  | ind n ih =>
      refine Setting.readable_of_faultless (hall h) fun sel hsel use hopens => ?_
      obtain ⟨ds', hreach⟩ := h.fragment hsel hopens
      have hhas := has_of_reaches hplain hroot h
      have hresolves := hd.resolves_selectionsOf rfl hhas sel hsel
      obtain ⟨node, hnode⟩ := hhas
      have hsel' : sel ∈ node.selections := by
        rwa [show input.setting.view.selectionsOf set = node.selections from
          SyntaxView.selectionsOf_of_document hnode] at hsel
      have hlt : rank use.selectionSet < rank set :=
        hranks hnode hsel' (hopens.enters rfl hresolves)
      exact ih _ (hrank ▸ hlt) hreach rfl

/-! ## What is built has been reached -/

/-- The sources of the task have been reached at the place, and their clauses say how. -/
def Arrives (input : CompileInput σ) (rootType : ObjectType) (root : SelectionSetId)
    (path : Setting.ResponsePath) (task : BuildTask σ) : Prop :=
  ∀ c ∈ task.sources, ∃ ds,
    input.setting.Reaches rootType root path task.objectType ds c.selectionSet ∧
      Conveys (some c.clause) ds

theorem arrives_root : input.Arrives rootType root [] (input.rootTask root rootType) := by
  intro c hc
  rw [List.mem_singleton.1 hc]
  exact ⟨[], .root, conveys_always⟩

section Level

variable (hfs : input.setting.FlattensAll task.objectType (· = true) task.sources fs)
  (harrives : input.Arrives rootType root path task)

include hfs harrives

theorem Arrives.deferral {d : PendingDeferral} (hd : .deferral d ∈ fs) :
    input.Arrives rootType root path (task.deferral d) := by
  intro c hc
  rw [List.mem_singleton.1 hc]
  exact ⟨[], hfs.arrives harrives _ hd, conveys_always⟩

/-- What was found under one response key is of one field, and has sub-selections throughout or
not at all. -/
theorem Arrives.agree (hagree : input.setting.CollectableAgree rootType root) {key : String}
    {o o' : FoundField} (ho : o ∈ occurrencesAt key fs) (ho' : o' ∈ occurrencesAt key fs) :
    task.objectType.field? o'.node.name = some o.field ∧
      o.node.selectionSet.isSome = o'.node.selectionSet.isSome := by
  obtain ⟨hmem, hkey⟩ := mem_occurrencesAt.1 ho
  obtain ⟨hmem', hkey'⟩ := mem_occurrencesAt.1 ho'
  obtain ⟨ds, set, id, hreach, hsel, hn, -⟩ := hfs.arrives harrives _ hmem
  obtain ⟨ds', set', id', hreach', hsel', hn', -⟩ := hfs.arrives harrives _ hmem'
  obtain ⟨hname, hinner⟩ := hagree ⟨ds, set, id, hreach, hsel, hn⟩
    ⟨ds', set', id', hreach', hsel', hn'⟩ (hkey.trans hkey'.symm)
  exact ⟨hname ▸ (hfs.field_mem hmem).2, hinner⟩

theorem Arrives.sub (hagree : input.setting.CollectableAgree rootType root) {key : String}
    {o : FoundField} {os : List FoundField} (hocc : occurrencesAt key fs = o :: os)
    {t : ObjectType} (ht : t ∈ input.schema.possibleTypes o.field.type.innermost) :
    input.Arrives rootType root ((key, t.name) :: path)
      (input.subTask task (o :: os) key o.field t) := by
  intro c hc
  obtain ⟨o', ho', hclause, hinner⟩ := mem_subTask_sources.1 hc
  have ho : o ∈ occurrencesAt key fs := hocc ▸ List.mem_cons_self
  rw [← hocc] at ho'
  obtain ⟨hmem, rfl⟩ := mem_occurrencesAt.1 ho'
  obtain ⟨ds, set, id, hreach, hsel, hn, hconveys⟩ := hfs.arrives harrives _ hmem
  have hfield := (harrives.agree hfs hagree ho ho').1
  have hpassable := hconveys.exists_iff.1 ⟨_, hclause⟩
  rw [hclause] at hconveys
  exact ⟨_, .inner hreach hsel hn hfield hinner hpassable ht, hconveys⟩

end Level

/-! ## Where all is faultless, building succeeds -/

theorem succeeds_build_of_faultless (hplain : input.Plain) (hroot : input.document.Has root)
    (hagree : input.setting.CollectableAgree rootType root)
    (hall : input.setting.AllFaultless rootType root) {depth : SelectionSetId → Nat}
    (hdepths : input.document.Depths input.fragments depth) {fuel : Nat} (hfuel : 0 < fuel)
    (htask : input.PlainTask task) (harrives : input.Arrives rootType root path task)
    (hshallow : input.Shallow depth fuel task) :
    Succeeds (perform (input.build fuel) task) := by
  have hd := hplain.document.closed
  induction fuel generalizing path task with
  | zero => exact absurd hfuel (lt_irrefl 0)
  | succ fuel ih =>
      have hcollect : Succeeds (input.collect (input.contextOf task) task.optimizers
          task.sources) := by
        refine succeeds_collect hd hplain.fragments fun c hc => ⟨htask.has c hc, ?_⟩
        obtain ⟨ds, hreach, -⟩ := harrives c hc
        exact readable_of_reaches hplain hroot hall hreach
      -- whatever is found leads to smaller depths
      have hbelow : ∀ {fs}, input.setting.FlattensAll task.objectType (· = true) task.sources fs →
          ∀ f ∈ fs, f.Below depth fuel := fun hfs =>
        hfs.below_depth hd hplain.indexed.within rfl hdepths fun c hc =>
          ⟨htask.has c hc, Nat.le_of_lt_succ (hshallow c hc).2⟩
      refine succeeds_perform hd hplain.indexed.within htask.has hcollect htask.passive
        (htask.answers _) (fun {fs d} hfs hwithin hmem => ?_) ?_
      · have hlt : depth d.selectionSet < fuel := hbelow hfs _ hmem
        have hsub : input.Shallow depth fuel (task.deferral d) := by
          intro c hc
          rw [List.mem_singleton.1 hc]
          exact ⟨hwithin _ hmem, hlt⟩
        exact ih (Nat.zero_lt_of_lt hlt) (htask.deferral (hwithin _ hmem))
          (harrives.deferral hfs hmem) hsub
      · intro fs key o os job hfs hwithin hocc hinner hjob
        refine succeeds_compileChildren hwithin hocc hjob fun t ht => ?_
        have hmem := (mem_occurrencesAt.1 (hocc ▸ List.mem_cons_self : o ∈ occurrencesAt key fs)).1
        obtain ⟨inner, hinner⟩ := Option.ne_none_iff_exists'.1 hinner
        have hlt : depth inner < fuel := hbelow hfs _ hmem inner hinner
        have hplainTask := htask.sub hplain.indexed hwithin hocc o.field (hplain.below _ _) t
        have hsub : input.Shallow depth fuel (input.subTask task (o :: os) key o.field t) := by
          intro c hc
          obtain ⟨o', ho', -, hinner'⟩ := mem_subTask_sources.1 hc
          rw [← hocc] at ho'
          exact ⟨hplainTask.has c hc,
            hbelow hfs _ (mem_occurrencesAt.1 ho').1 c.selectionSet hinner'⟩
        exact ih (Nat.zero_lt_of_lt hlt) hplainTask (harrives.sub hfs hagree hocc ht) hsub

/-! ## Where a plan was made, all has been visited -/

/-- A set of the plan was made for the type at the place, and the selection set was gone through
for it at the end of a way with the directives. -/
def Visits (input : CompileInput σ) (p : Plan) (rootType : ObjectType) (root : SelectionSetId)
    (path : Setting.ResponsePath) (t : ObjectType) (ds : List DirectiveNode)
    (source : SelectionSetId) : Prop :=
  ∃ n task fs set, input.PlainTask task ∧ input.Arrives rootType root path task ∧
    task.objectType = t ∧
    input.Listed p.variants (input.MadeWithin p.variants n) task (· = true) fs set ∧
    ∃ clause found, Conveys clause ds ∧ found ⊆ fs ∧
      input.setting.Flattens t (· = true) (input.setting.view.selectionsOf source) clause found

variable {p : Plan}

/-- The sources of a set that was made have been gone through. -/
theorem visits_of_made (hplain : input.Plain) {n : Nat} {made : SelectionSet}
    (htask : input.PlainTask task) (harrives : input.Arrives rootType root path task)
    (hmade : input.MadeWithin p.variants n task made) {c : ClausedSet} (hc : c ∈ task.sources)
    (hconveys : Conveys (some c.clause) ds) :
    input.Visits p rootType root path task.objectType ds c.selectionSet := by
  cases n with
  | zero => exact hmade.elim
  | succ n =>
      obtain ⟨fs, hl⟩ := htask.listed hplain.indexed hmade
      obtain ⟨found, hfound, hsub⟩ := hl.flattens.of_mem hc
      exact ⟨n, task, fs, made, htask, harrives, rfl, hl, _, found, hconveys, hsub, hfound⟩

/-- Where a set was made, there is one for each type that an occurrence in it leads to. -/
theorem Arrives.exists_made (harrives : input.Arrives rootType root path task)
    (hagree : input.setting.CollectableAgree rootType root) {n : Nat} {made : SelectionSet}
    (hl : input.Listed p.variants (input.MadeWithin p.variants n) task (· = true) fs made)
    {key : String} {o : FoundField} (ho : o ∈ occurrencesAt key fs) {field : Field}
    (hf : task.objectType.field? o.node.name = some field)
    (hinner : o.node.selectionSet.isSome) {t : ObjectType}
    (ht : t ∈ input.schema.possibleTypes field.type.innermost) :
    ∃ first os sub, occurrencesAt key fs = first :: os ∧ first.field = field ∧
      input.MadeWithin p.variants n (input.subTask task (first :: os) key field t) sub := by
  obtain ⟨s, hs, rfl⟩ := hl.spelled.exists_selection (List.ne_nil_of_mem ho)
  obtain ⟨first, os, hocc, hof⟩ := hl.spelled.selection s hs
  -- the first occurrence is of the same field, and has sub-selections too
  obtain ⟨hfield, hsome⟩ := harrives.agree hl.flattens hagree (hocc ▸ List.mem_cons_self) ho
  obtain rfl : field = first.field := Option.some.inj (hf.symm.trans hfield)
  obtain ⟨inner, hfirst⟩ := Option.isSome_iff_exists.1 (hsome.trans hinner)
  obtain ⟨_, v, -, -, hforall⟩ := hof.inner hfirst
  obtain ⟨e, -, -, hmade⟩ := exists_of_mem_left hforall ht
  exact ⟨first, os, _, hocc, rfl, hmade⟩

/-- **What is reached has been visited**, if the sources of the root have been. -/
theorem visits_of_reaches (hplain : input.Plain)
    (hagree : input.setting.CollectableAgree rootType root)
    (hstart : input.Visits p rootType root [] rootType [] root)
    (h : input.setting.Reaches rootType root path t ds set) :
    input.Visits p rootType root path t ds set := by
  induction h with
  | root => exact hstart
  | entered _ hsel hopens hnot ih =>
      obtain ⟨n, task, fs, made, htask, harrives, htype, hl, clause, found, hconveys, hsub, hflat⟩ :=
        ih
      obtain ⟨found', hinner, hsub'⟩ := hflat.exists_inner hsel hopens
        fun hdefer => hnot ((hconveys.deferrable_iff _).1 hdefer)
      exact ⟨n, task, fs, made, htask, harrives, htype, hl, _, found', hconveys.reachedUnder _,
        List.Subset.trans hsub' hsub, hinner⟩
  | deferred _ hsel hopens haside ih =>
      obtain ⟨n, task, fs, made, htask, harrives, rfl, hl, clause, found, hconveys, hsub, hflat⟩ :=
        ih
      obtain ⟨d, hd, hset⟩ := hflat.exists_deferral hsel hopens
        ((hconveys.deferrable_iff _).2 haside)
      -- what was set aside was built on its own
      obtain ⟨e, -, hplainTask, sub, hmade, -⟩ :=
        exists_of_mem_left (htask.deferrals hl) (mem_deferrals_iff.2 (hsub hd))
      exact hset ▸ visits_of_made hplain hplainTask (harrives.deferral hl.flattens (hsub hd)) hmade
        (List.mem_singleton_self _) conveys_always
  | @inner _ _ ds _ id node field inner t' _ hsel hn hf hinner hpassable ht ih =>
      obtain ⟨n, task, fs, made, htask, harrives, rfl, hl, clause, found, hconveys, hsub, hflat⟩ :=
        ih
      obtain ⟨f, hmem⟩ := hflat.exists_field hsel hn
      obtain ⟨c, hc⟩ := (hconveys.reachedUnder node.directives).exists_iff.2 hpassable
      let o : FoundField := ⟨node, f, reachedUnder clause node.directives⟩
      have ho : o ∈ occurrencesAt node.responseKey fs := mem_occurrencesAt.2 ⟨hsub hmem, rfl⟩
      obtain ⟨first, os, sub, hocc, rfl, hmade⟩ :=
        harrives.exists_made hagree hl ho hf (hinner ▸ rfl) ht
      have hsource : (⟨inner, c⟩ : ClausedSet) ∈
          (input.subTask task (first :: os) node.responseKey first.field t').sources :=
        mem_subTask_sources.2 ⟨o, hocc ▸ ho, hc, hinner⟩
      exact visits_of_made hplain
        (htask.sub hplain.indexed hl.within hocc first.field (hplain.below _ _) t')
        (harrives.sub hl.flattens hagree hocc ht) hmade hsource
        (hc ▸ hconveys.reachedUnder node.directives)

/-! ## Which operations compile -/

/-- **An operation compiles exactly if nothing that is reached is at fault.** Without optimizers, a
compilation fails only for a field that the type does not have, for a spread that names no
fragment, or for a type condition that names no type, and it fails wherever such a selection is
reached. -/
theorem compile_ok_iff_faultless (hschema : input.schema.Built) (hplain : input.Plain)
    {name : Option String} {operation : OperationNode}
    (hoperation : input.document.operation name = .ok operation)
    (hrootType : input.schema.rootType? operation.kind = some rootType)
    (hagree : input.setting.CollectableAgree rootType operation.selectionSet) (memory : σ) :
    (∃ p memory', input.compile name memory = (.ok p, memory')) ↔
      input.setting.AllFaultless rootType operation.selectionSet := by
  have hroot : input.document.Has operation.selectionSet :=
    hplain.document.closed.operation operation (Document.operation_mem hoperation)
  constructor
  · rintro ⟨p, memory', h⟩
    have hcompiled := compiled_of_compileWithin hschema hplain.document hplain.lawful h
    obtain rfl : operation = p.operation :=
      Except.ok.inj (hoperation.symm.trans hcompiled.operation)
    obtain rfl : rootType = p.rootType :=
      Option.some.inj (hrootType.symm.trans hcompiled.rootType)
    obtain ⟨v, set, -, -, hmade⟩ := hcompiled.root
    have hstart : input.Visits p p.rootType p.root [] p.rootType [] p.root :=
      visits_of_made hplain (hplain.rootTask hoperation p.rootType) arrives_root hmade
        (List.mem_singleton_self _) conveys_always
    intro path t ds set hreach
    obtain ⟨_, _, _, _, -, -, -, -, _, _, -, -, hflat⟩ :=
      visits_of_reaches hplain hagree hstart hreach
    exact hflat.faultless
  · intro hall
    obtain ⟨depth, hdepths, hle⟩ :=
      FragmentIndex.exists_depths hplain.document.closed hplain.fragments
    have hshallow : input.Shallow depth input.nestingBound
        (input.rootTask operation.selectionSet rootType) := by
      intro c hc
      rw [List.mem_singleton.1 hc]
      exact ⟨hroot, (hle _).trans_lt input.size_lt_nestingBound⟩
    have hbuild := succeeds_build_of_faultless hplain hroot hagree hall hdepths
      (Nat.zero_lt_of_lt input.size_lt_nestingBound) (hplain.rootTask hoperation rootType)
      arrives_root hshallow
    obtain ⟨set, s, hset⟩ := hbuild ((input.start operation.selectionSet memory).reach
      operation.selectionSet)
    exact ⟨_, _, compileWithin_eq_ok_iff.2 ⟨operation, rootType, _, hoperation, hrootType,
      runs_compileVariant.2 ⟨set, s, hset, rfl⟩, rfl, rfl⟩⟩

end CompileInput

namespace Linked

open Syntax

/-- An unknown field that no request can reach: below a field it does no harm, in a fragment it
does. -/
def shadowedDefinitions : ExecutableDocument :=
  let never : Directive := ⟨"skip", [("if", .boolean true)], here⟩
  let unknown := select "unknown" [] []
  [.operation ⟨.query, some "Below", [], [], ⟨here, [select "next" [never] [unknown]]⟩, here, false⟩,
   .operation ⟨.query, some "Inside", [], [],
     ⟨here, [.inlineFragment ⟨none, [never], here⟩ here [unknown]]⟩, here, false⟩]

def shadowed : CompileInput Unit :=
  let d := okValue (Document.build none shadowedDefinitions) (by decide +kernel)
  ⟨schema, d, okValue (FragmentIndex.build d) (by decide +kernel), .empty⟩

theorem shadowed_plain : shadowed.Plain where
  document := ⟨none, shadowedDefinitions, eq_ok_okValue (by decide +kernel)⟩
  fragments := eq_ok_okValue _
  pipeline := rfl

def shadowedBelow : OperationNode :=
  okValue (shadowed.document.operation (some "Below")) (by decide +kernel)

def shadowedInside : OperationNode :=
  okValue (shadowed.document.operation (some "Inside")) (by decide +kernel)

theorem allFaultless_shadowed : ∃ rootType,
    shadowed.setting.CollectableAgree rootType shadowedBelow.selectionSet ∧
    shadowed.setting.CollectableAgree rootType shadowedInside.selectionSet ∧
    shadowed.setting.AllFaultless rootType shadowedBelow.selectionSet ∧
    ¬ shadowed.setting.AllFaultless rootType shadowedInside.selectionSet := by
  obtain ⟨rootType, hrootType⟩ := Option.isSome_iff_exists.1
    (show (shadowed.schema.rootType? .query).isSome by decide +kernel)
  have hkind : shadowedBelow.kind = .query := by decide +kernel
  have hkind' : shadowedInside.kind = .query := by decide +kernel
  have hagree : ∀ root, shadowed.setting.CollectableAgree rootType root := fun root =>
    (Setting.nodesAgree_of_fields (d := shadowed.document) (by decide +kernel) rootType
      root).collectable
  have hbelow : (∃ p m, shadowed.compile (some "Below") () = (.ok p, m)) ↔ _ :=
    CompileInput.compile_ok_iff_faultless schema_built shadowed_plain (eq_ok_okValue _)
      (hkind ▸ hrootType) (hagree shadowedBelow.selectionSet) ()
  have hinside : (∃ p m, shadowed.compile (some "Inside") () = (.ok p, m)) ↔ _ :=
    CompileInput.compile_ok_iff_faultless schema_built shadowed_plain (eq_ok_okValue _)
      (hkind' ▸ hrootType) (hagree shadowedInside.selectionSet) ()
  refine ⟨rootType, hagree _, hagree _, ?_, ?_⟩
  · obtain ⟨p, memory, h⟩ := exists_eq_ok (x := shadowed.compile (some "Below") ())
      (by decide +kernel)
    exact hbelow.1 ⟨p, memory, h⟩
  · intro hall
    obtain ⟨p, memory, h⟩ := hinside.2 hall
    have hfails : (shadowed.compile (some "Inside") ()).1.isOk = false := by decide +kernel
    rw [h] at hfails
    cases hfails

end Linked

end QueryPlan
