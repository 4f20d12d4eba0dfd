import QueryPlan.Proofs.Plan.Inlining
import QueryPlan.Proofs.Plan.WellTyped

/-!
# Optimizers below fields keep to their scope

A pipeline that registers optimizers only below fields leaves the rest of a plan as it would have
been without them. What a selection set outside their scope is built from is determined by the
document: no optimizer is asked about its fragments and none revises it, and whatever those inside
the scope have put into the synthetic syntax, no source outside of it lies there. So two plans,
made with and without the pipeline, have the same outline once everything below the selections
that match a registration is cut off.
-/

set_option autoImplicit false

namespace QueryPlan

variable {σ : Type}

/-! ## Outlines -/

/-- A draft without the key of its sub-selections. -/
def SelectionDraft.keyless (d : SelectionDraft) : SelectionDraft := { d with selectionSet := none }

/-- A selection without its id and its key. Of its sub-selections there is only what is kept of
them, by the names of the types. -/
structure SelectionOutline (σ : Type) where
  draft : SelectionDraft
  hasSelections : Bool
  below : List (String × σ)

/-- A selection set and what lies below it, without ids and keys. -/
inductive Outline
  | mk (objectType : ObjectType) (selections : List (SelectionOutline Outline))
      (deferred : List (DeferredFragment Outline))

/-- The same fragment with something else for its selections. -/
def DeferredFragment.withSelections {α β : Type} (d : DeferredFragment α) (x : β) :
    DeferredFragment β :=
  ⟨d.source, d.label, d.ifVariable, d.typeCondition, d.condition, x⟩

/-- The outline of a selection, where `children` gives the outlines of what stands under a key.
Below a selection that is cut nothing is kept. -/
def Selection.outline (cut : Selection → Bool) (children : SelectionSetId → List (String × Outline))
    (s : Selection) : SelectionOutline Outline where
  draft := s.toSelectionDraft.keyless
  hasSelections := s.selectionSet.isSome
  below := if cut s then [] else s.selectionSet.elim [] children

/-- The outline of a selection set of a plan, down to some depth. -/
def Plan.outline (p : Plan) (cut : Selection → Bool) : Nat → SelectionSet → Outline
  | 0, set => .mk set.objectType [] []
  | n + 1, set =>
    .mk set.objectType
      (set.selections.map <| Selection.outline cut fun key =>
        (p.variants.get? key).elim [] fun v =>
          v.sets.entries.map fun e => (e.1, p.outline cut n e.2))
      (set.deferred.map fun d => d.withSelections (p.outline cut n d.selectionSet))

namespace Pipeline

/-- Whether some optimizer is registered for the field of a selection. -/
def matchesSelection (p : Pipeline σ) (s : Selection) : Bool :=
  p.byField.any (matchesField s.declaringType s.field.name)

theorem below_eq_nil {p : Pipeline σ} {s : Selection} (h : p.matchesSelection s = false) :
    p.below s.declaringType s.field.name = [] := by
  have hnone : ∀ o ∈ p.byField, ¬ matchesField s.declaringType s.field.name o = true := by
    simpa [matchesSelection] using h
  rw [below, List.filter_eq_nil_iff.2 hnone, List.map_nil]

end Pipeline

namespace CompileInput

variable {input : CompileInput σ} {task : BuildTask σ} {p p' : Plan} {set set' : SelectionSet}

/-- The same compilation without optimizers. -/
def unoptimized (input : CompileInput σ) : CompileInput σ := { input with pipeline := .empty }

theorem Indexed.unoptimized (h : input.Indexed) : input.unoptimized.Indexed :=
  ⟨h.document, h.fragments⟩

/-- Without optimizers every plan was made as a build makes it. -/
theorem Indexed.compiled_unoptimized (hindexed : input.Indexed) (hschema : input.schema.Built)
    {bound : Nat} {name : Option String} {memory memory' : σ} {p : Plan}
    (h : input.unoptimized.compileWithin bound name memory = (.ok p, memory')) :
    input.unoptimized.Compiled bound name p := by
  have hschema' : input.unoptimized.schema.Built := hschema
  exact compiled_of_compileWithin hschema' hindexed.unoptimized.document
    Pipeline.passive_empty.lawful h

/-- Below a selection that matches no registration, what is built is the same task with and
without the pipeline. -/
theorem subTask_unoptimized {os : List FoundField} {key : String} {field : Field} {t : ObjectType}
    (hbelow : input.pipeline.below task.objectType field.name = []) :
    input.unoptimized.subTask task os key field t = input.subTask task os key field t := by
  rw [subTask, subTask, hbelow]
  rfl

/-- Selections of the same occurrences have the same outline, if what was made for the same tasks
below them has. -/
theorem SelectionOf.outline_eq {below below' : BuildTask σ → SelectionSet → Prop}
    {cut : Selection → Bool} {n : Nat} {o : FoundField} {os : List FoundField} {s s' : Selection}
    (h : input.SelectionOf p.variants below task o os s)
    (h' : input.unoptimized.SelectionOf p'.variants below' task o os s')
    (hdraft : s.toSelectionDraft.keyless = s'.toSelectionDraft.keyless) (hcut : cut s = cut s')
    (hbelow : cut s = false → ∀ t sub sub',
      below (input.subTask task (o :: os) s.responseKey o.field t) sub →
      below' (input.unoptimized.subTask task (o :: os) s'.responseKey o.field t) sub' →
      p.outline cut n sub = p'.outline cut n sub') :
    (s.outline cut fun key => (p.variants.get? key).elim [] fun v =>
        v.sets.entries.map fun e => (e.1, p.outline cut n e.2)) =
      s'.outline cut fun key => (p'.variants.get? key).elim [] fun v =>
        v.sets.entries.map fun e => (e.1, p'.outline cut n e.2) := by
  unfold Selection.outline
  rw [hdraft, ← hcut]
  cases hset : o.node.selectionSet with
  | none =>
      rw [h.leaf hset, h'.leaf hset]
      rfl
  | some inner =>
      obtain ⟨key, v, hkey, hv, hforall⟩ := h.inner hset
      obtain ⟨key', v', hkey', hv', hforall'⟩ := h'.inner hset
      rw [hkey, hkey', Option.isSome_some, Option.isSome_some, Option.elim_some, Option.elim_some,
        hv, hv', Option.elim_some, Option.elim_some]
      cases hscoped : cut s with
      | true => rfl
      | false =>
          -- the types are the same, and so are the tasks for them
          have hentries : v.sets.entries.map (fun e => (e.1, p.outline cut n e.2)) =
              v'.sets.entries.map fun e => (e.1, p'.outline cut n e.2) := by
            refine map_eq_of_forall₂ (forall₂_comp hforall.flip hforall') ?_
            rintro e e' ⟨t, ⟨hname, hmade⟩, hname', hmade'⟩
            rw [hname, hname', hbelow hscoped t e.2 e'.2 hmade hmade']
          rw [hentries]

/-- One level of two selection sets that list the same, if what was made for the same tasks below
has the same outlines. -/
theorem Listed.outline_eq {below below' : BuildTask σ → SelectionSet → Prop} {fs : List Found}
    {n : Nat} (h : input.Listed p.variants below task (· = true) fs set)
    (h' : input.unoptimized.Listed p'.variants below' task (· = true) fs set')
    (hdeferred : ∀ d, .deferral d ∈ fs → ∀ sub sub', below (task.deferral d) sub →
      below' (task.deferral d) sub' → p.outline input.pipeline.matchesSelection n sub =
        p'.outline input.pipeline.matchesSelection n sub')
    (hbelow : ∀ {key field o os}, occurrencesAt key fs = o :: os →
      input.pipeline.below task.objectType field.name = [] → ∀ t sub sub',
      below (input.subTask task (o :: os) key field t) sub →
      below' (input.subTask task (o :: os) key field t) sub' →
      p.outline input.pipeline.matchesSelection n sub =
        p'.outline input.pipeline.matchesSelection n sub') :
    p.outline input.pipeline.matchesSelection (n + 1) set =
      p'.outline input.pipeline.matchesSelection (n + 1) set' := by
  rw [Plan.outline, Plan.outline, h.objectType, h'.objectType]
  congr 1
  · refine map_eq_of_forall₂ (forall₂_comp h.selections.flip h'.selections) ?_
    rintro s s' ⟨key, ⟨hkey, o, os, hocc, ⟨_, hdraft⟩, hof⟩, hkey', o', os', hocc', ⟨_, hdraft'⟩,
      hof'⟩
    obtain ⟨rfl, rfl⟩ := List.cons.inj (hocc.symm.trans hocc')
    have htype : s.declaringType = task.objectType := by
      rw [hdraft]
      rfl
    refine hof.outline_eq hof' ?_ ?_ fun hnot t sub sub' hsub hsub' => ?_
    · rw [hdraft, hdraft']
      rfl
    · unfold Pipeline.matchesSelection
      rw [hdraft, hdraft']
    · -- outside the scope of all optimizers nothing comes in
      have hnone : input.pipeline.below task.objectType o.field.name = [] := by
        have hnone := Pipeline.below_eq_nil hnot
        rwa [htype, hof.field] at hnone
      rw [hkey] at hsub
      rw [hkey', subTask_unoptimized hnone] at hsub'
      exact hbelow hocc hnone t sub sub' hsub hsub'
  · have hdeferrals := (List.forall₂_and_left _ _).2 ⟨fun _ hd => hd, h.deferred⟩
    refine map_eq_of_forall₂ (forall₂_comp hdeferrals.flip h'.deferred) ?_
    rintro e e' ⟨d, ⟨hd, sub, hsub, rfl⟩, sub', hsub', rfl⟩
    show (d.finish sub).withSelections _ = (d.finish sub').withSelections _
    rw [PendingDeferral.finish, PendingDeferral.finish, DeferredFragment.withSelections,
      DeferredFragment.withSelections, hdeferred d (mem_deferrals_iff.1 hd) sub sub' hsub hsub']

/-- **What was made for one task without optimizers has the same outline, with a pipeline that
registers optimizers only below fields and without it.** -/
theorem outline_eq_of_made (hindexed : input.Indexed) (htask : input.PlainTask task) {k k' : Nat}
    (h : input.MadeWithin p.variants k task set)
    (h' : input.unoptimized.MadeWithin p'.variants k' task set') (n : Nat) :
    p.outline input.pipeline.matchesSelection n set =
      p'.outline input.pipeline.matchesSelection n set' := by
  induction n generalizing k k' task set set' with
  | zero =>
      rw [Plan.outline, Plan.outline, h.objectType, h'.objectType]
  | succ n ih =>
      obtain _ | k := k
      · exact h.elim
      obtain _ | k' := k'
      · exact h'.elim
      have htask' : input.unoptimized.PlainTask task := ⟨htask.has, htask.optimizers⟩
      obtain ⟨fs, hl⟩ := htask.listed hindexed h
      obtain ⟨fs', hl'⟩ := htask'.listed hindexed.unoptimized h'
      -- the same is found, since the same document is read for the same type
      obtain rfl : fs = fs' := hl.flattens.unique (fun _ h => absurd h (by decide)) hl'.flattens
      refine hl.outline_eq hl' (fun d hd sub sub' hsub hsub' => ?_)
        fun {key field o os} hocc hnone t sub sub' hsub hsub' => ?_
      · have hhas : input.document.Has d.selectionSet := hl.within _ hd
        exact ih (htask.deferral hhas) hsub hsub'
      · exact ih (htask.sub hindexed hl.within hocc field hnone t) hsub hsub'

/-! ## Whole plans -/

variable {name : Option String} {bound bound' : Nat} {memory memory' m m' : σ}

theorem Indexed.rootTask (h : input.Indexed) (hgeneral : input.pipeline.general = [])
    {o : OperationNode} (ho : input.document.operation name = .ok o) (rootType : ObjectType) :
    input.PlainTask (input.rootTask o.selectionSet rootType) := by
  refine ⟨fun c hc => ?_, hgeneral⟩
  rw [List.mem_singleton.1 hc]
  exact h.document.closed.operation o (Document.operation_mem ho)

/-- **Optimizers that are registered below fields do not reach outside their scope.** Where an
operation compiles with them and without optimizers, both plans are the same outside: they are for
the same operation and type, and from the root on they have the same outline to every depth, once
all that lies below the selections matching a registration is left out. -/
theorem outline_eq_of_scoped (hschema : input.schema.Built) (hindexed : input.Indexed)
    (hlawful : input.pipeline.Lawful) (hgeneral : input.pipeline.general = [])
    (h : input.compileWithin bound name memory = (.ok p, m))
    (h' : input.unoptimized.compileWithin bound' name memory' = (.ok p', m')) :
    p.operation = p'.operation ∧ p.rootType = p'.rootType ∧
      ∃ set set', p.rootSelectionSet = .ok set ∧ p'.rootSelectionSet = .ok set' ∧
        ∀ n, p.outline input.pipeline.matchesSelection n set =
          p'.outline input.pipeline.matchesSelection n set' := by
  have hcompiled := compiled_of_compileWithin hschema hindexed.document hlawful h
  have hcompiled' := hindexed.compiled_unoptimized hschema h'
  have hoperation : p.operation = p'.operation :=
    Except.ok.inj (hcompiled.operation.symm.trans hcompiled'.operation)
  have hrootType : p.rootType = p'.rootType := by
    have hrootType' : input.schema.rootType? p'.operation.kind = some p'.rootType :=
      hcompiled'.rootType
    rw [← hoperation, hcompiled.rootType, Option.some_inj] at hrootType'
    exact hrootType'
  obtain ⟨set, hset, hmade⟩ := hcompiled.exists_root
  obtain ⟨set', hset', hmade'⟩ := hcompiled'.exists_root
  refine ⟨hoperation, hrootType, set, set', hset, hset', fun n => ?_⟩
  -- both roots were made for one task
  have htask :
      input.unoptimized.rootTask p'.root p'.rootType = input.rootTask p.root p.rootType := by
    rw [CompileInput.rootTask, CompileInput.rootTask, hgeneral, Plan.root, Plan.root, hoperation,
      hrootType]
    rfl
  rw [htask] at hmade'
  exact outline_eq_of_made hindexed (hindexed.rootTask hgeneral hcompiled.operation p.rootType)
    hmade hmade' n

end CompileInput

namespace Linked

/-- Empties all selection sets below the links of leaves. -/
def clearing : CompileInput Journal where
  schema := schema
  document := document
  fragments := fragments
  pipeline :=
    Pipeline.empty.withFieldOptimizer "Leaf" "next" (Rule.optimizer ⟨none, none, .edit .clear⟩)

theorem clearing_lawful : clearing.pipeline.Lawful where
  general o ho := absurd ho List.not_mem_nil
  byField o ho := by
    obtain rfl := List.mem_singleton.1 ho
    exact Rule.lawful_optimizer _

theorem clearing_indexed : clearing.Indexed := ⟨document_built, fragments_eq⟩

theorem outline_eq_of_scoped_linked : ∃ p p' m m' set set',
    clearing.compileWithin 10 none [] = (.ok p, m) ∧
      clearing.unoptimized.compileWithin 10 none [] = (.ok p', m') ∧
      p.rootSelectionSet = .ok set ∧ p'.rootSelectionSet = .ok set' ∧
      ∀ n, p.outline clearing.pipeline.matchesSelection n set =
        p'.outline clearing.pipeline.matchesSelection n set' := by
  obtain ⟨p, m, h⟩ := exists_eq_ok (x := clearing.compileWithin 10 none []) (by decide +kernel)
  obtain ⟨p', m', h'⟩ :=
    exists_eq_ok (x := clearing.unoptimized.compileWithin 10 none []) (by decide +kernel)
  obtain ⟨-, -, set, set', hset, hset', houtline⟩ := CompileInput.outline_eq_of_scoped schema_built
    clearing_indexed clearing_lawful rfl h h'
  exact ⟨p, p', m, m', set, set', h, h', hset, hset', houtline⟩

end Linked

namespace Outline

/-- The selections of an outline. -/
def selections : Outline → List (SelectionOutline Outline)
  | .mk _ selections _ => selections

/-- What is kept below the selection with a response key, by the names of the types. -/
def belowKey (key : String) (o : Outline) : List (String × Outline) :=
  (o.selections.find? (·.draft.responseKey = key)).elim [] (·.below)

end Outline

namespace Grafted

/-- The names of the types that the friends of the second user have in an outline. -/
def friendTypes (o : Outline) : List String :=
  (o.belowKey "you").flatMap fun e => (e.2.belowKey "friend").map (·.1)

/-- The same for a plan, down to the types below the friends. -/
def friendTypesIn (p : Plan) : Option (List String) :=
  p.rootSelectionSet.toOption.map fun set =>
    friendTypes (p.outline input.pipeline.matchesSelection 3 set)

theorem exists_root_of_friendTypesIn {p : Plan} {names : List String}
    (h : friendTypesIn p = some names) : ∃ set, p.rootSelectionSet = .ok set ∧
      friendTypes (p.outline input.pipeline.matchesSelection 3 set) = names := by
  obtain ⟨set, hset, hnames⟩ := Option.map_eq_some_iff.1 h
  exact ⟨set, eq_ok_of_toOption hset, hnames⟩

/-- An optimizer below the first user puts in a graft with the key that the friends of the second
one get, who is out of its scope. The types of these friends then are those of the pets as well. -/
theorem outline_ne_of_grafting : input.schema.Built ∧ input.Indexed ∧
    input.pipeline.general = [] ∧ ∃ p p' m m' set set',
      input.compile none () = (.ok p, m) ∧ input.unoptimized.compile none () = (.ok p', m') ∧
      p.rootSelectionSet = .ok set ∧ p'.rootSelectionSet = .ok set' ∧
      friendTypes (p.outline input.pipeline.matchesSelection 3 set) = ["Cat", "Dog", "User"] ∧
      friendTypes (p'.outline input.pipeline.matchesSelection 3 set') = ["User"] ∧
      p.outline input.pipeline.matchesSelection 3 set ≠
        p'.outline input.pipeline.matchesSelection 3 set' := by
  obtain ⟨p, m, h, htest⟩ := exists_eq_ok_and (x := input.compile none ())
    (t := fun p : Plan => friendTypesIn p = some ["Cat", "Dog", "User"]) (by decide +kernel)
  obtain ⟨p', m', h', htest'⟩ := exists_eq_ok_and (x := input.unoptimized.compile none ())
    (t := fun p : Plan => friendTypesIn p = some ["User"]) (by decide +kernel)
  obtain ⟨set, hset, hnames⟩ := exists_root_of_friendTypesIn (of_decide_eq_true htest)
  obtain ⟨set', hset', hnames'⟩ := exists_root_of_friendTypesIn (of_decide_eq_true htest')
  refine ⟨schema_built, ⟨stockDocument_built, stockFragments_eq⟩, rfl, p, p', m, m', set, set', h,
    h', hset, hset', hnames, hnames', fun heq => ?_⟩
  rw [heq, hnames'] at hnames
  exact absurd hnames (by decide)

end Grafted

end QueryPlan
