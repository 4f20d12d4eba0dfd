import QueryPlan.Proofs.Plan.Matching
import QueryPlan.Proofs.Plan.WellTyped

/-!
# What a build gathers

Collecting puts every occurrence of a field into the entry of its response key while it walks
through the selections. Here the two are taken apart: first all occurrences are listed, in the
order in which the walk meets them, and then the list is split by response key. What a build
without optimizers makes of some selection sets is that list, split (`gathered_of_build`): nothing
that was met is left out, and nothing is there twice.
-/

set_option autoImplicit false

namespace QueryPlan

/-! ## Splitting a list by a key -/

/-- A list is made up of what it has under each key, in whatever order the keys are gone
through. -/
theorem flatMap_filter_perm {α β : Type} [DecidableEq β] (key : α → β) {ks : List β}
    (hnodup : ks.Nodup) {xs : List α} (hkeys : ∀ x ∈ xs, key x ∈ ks) :
    (ks.flatMap fun k => xs.filter (key · = k)).Perm xs := by
  induction ks generalizing xs with
  | nil =>
      rw [List.eq_nil_iff_forall_not_mem.2 fun x hx => List.not_mem_nil (hkeys x hx)]
      exact .refl _
  | cons k ks ih =>
      rw [List.nodup_cons] at hnodup
      rw [List.flatMap_cons]
      have hother : (ks.flatMap fun k' => xs.filter (key · = k')) =
          ks.flatMap fun k' => (xs.filter fun x => !decide (key x = k)).filter (key · = k') := by
        refine List.flatMap_congr fun k' hk' => ?_
        rw [List.filter_filter]
        refine List.filter_congr fun x _ => ?_
        by_cases hx : key x = k'
        · have hne : key x ≠ k := fun heq => hnodup.1 (heq ▸ hx ▸ hk')
          simp [hx, hx ▸ hne]
        · simp [hx]
      rw [hother]
      refine ((ih hnodup.2 fun x hx => ?_).append_left _).trans
        (List.filter_append_perm _ xs)
      obtain ⟨hx, hne⟩ := List.mem_filter.1 hx
      exact (List.mem_cons.1 (hkeys x hx)).resolve_left (by simpa using hne)

/-! ## Occurrences -/

namespace Found

def occurrence? : Found → Option FoundField
  | field node f clause => some ⟨node, f, clause⟩
  | deferral _ => none

end Found

/-- All occurrences of fields, in order. -/
def occurrences (fs : List Found) : List FoundField := fs.filterMap Found.occurrence?

@[simp] theorem occurrences_append (fs fs' : List Found) :
    occurrences (fs ++ fs') = occurrences fs ++ occurrences fs' :=
  List.filterMap_append

theorem occurrencesAt_eq_filter (key : String) (fs : List Found) :
    occurrencesAt key fs = (occurrences fs).filter (·.node.responseKey = key) := by
  rw [occurrencesAt, occurrences, List.filter_filterMap]
  refine List.filterMap_congr fun f _ => ?_
  cases f with
  | field node field clause => simp only [Found.occurrence?, Option.filter_some, Found.fieldAt?,
      decide_eq_true_eq]
  | deferral d => rfl

/-- The response keys that were found, each where it occurs first. -/
def foundKeys (fs : List Found) : List String :=
  ((occurrences fs).map (·.node.responseKey)).eraseDups

theorem mem_foundKeys {fs : List Found} {key : String} :
    key ∈ foundKeys fs ↔ ∃ o ∈ occurrences fs, o.node.responseKey = key := by
  rw [foundKeys, List.mem_eraseDups, List.mem_map]

/-- Entries stand in the order in which their keys were first found. -/
theorem Collected.keys_mergeAll (fs : List Found) :
    (Collected.empty.mergeAll fs).fields.keys = foundKeys fs := by
  induction fs using List.reverseRecOn with
  | nil => rfl
  | append_singleton fs f ih =>
      rw [Collected.mergeAll, List.foldl_append, List.foldl_cons, List.foldl_nil, ← mergeAll,
        foundKeys, occurrences_append, List.map_append, List.eraseDups_append, ← foundKeys, ← ih]
      cases f with
      | deferral d => exact (List.append_nil _).symm
      | field node field clause =>
          show ((mergeAll empty fs).fields.insert node.responseKey _).keys = _
          rw [OrderedMap.keys_insert, ih]
          have hmem : node.responseKey ∈ foundKeys fs ↔
              ((occurrences fs).map (·.node.responseKey)).contains node.responseKey = true := by
            rw [foundKeys, List.mem_eraseDups, List.contains_iff_mem]
          simp only [occurrences, Found.occurrence?, List.filterMap_cons, List.filterMap_nil,
            List.map_cons, List.map_nil, List.cons_removeAll, List.nil_removeAll] at hmem ⊢
          split
          · rename_i hin
            rw [if_neg (by rw [hmem.1 hin]; exact Bool.noConfusion)]
            exact (List.append_nil _).symm
          · rename_i hnot
            rw [if_pos (Bool.eq_false_iff.2 fun hin => hnot (hmem.2 hin))]
            rfl

theorem nodup_foundKeys (fs : List Found) : (foundKeys fs).Nodup :=
  Collected.keys_mergeAll fs ▸ (Collected.empty.mergeAll fs).fields.nodup_keys

/-- Every occurrence stands under exactly one of the keys, at its place among those of the
key. -/
theorem flatMap_occurrencesAt_perm (fs : List Found) :
    ((foundKeys fs).flatMap fun key => occurrencesAt key fs).Perm (occurrences fs) := by
  simp only [occurrencesAt_eq_filter]
  exact flatMap_filter_perm (fun o : FoundField => o.node.responseKey) (nodup_foundKeys fs)
    fun o ho => mem_foundKeys.2 ⟨o, ho, rfl⟩

/-! ## Selections that gather occurrences -/

/-- The selection of a type has gathered some occurrences: the first says what the selection is,
all of them are noted, and it is included as the clauses of those that can be reached say. -/
structure Selection.Gathers (t : ObjectType) (s : Selection) (o : FoundField)
    (os : List FoundField) : Prop where
  responseKey : s.responseKey = o.node.responseKey
  field : s.field = o.field
  declaringType : s.declaringType = t
  arguments : s.arguments = o.node.arguments
  inner : s.selectionSet.isSome = o.node.selectionSet.isSome
  condition : s.condition =
    ((o :: os).filterMap (·.clause)).foldl IncludeCondition.addClause .never
  internal : s.internal = false
  nodes : s.nodes = (o :: os).map (·.node.id)

/-- The deferred fragment delivers some selections of the fragment that was set aside: it says where
they come from and what the directive asks, and its condition is the clause of the fragment. -/
structure DeferredFragment.Delivers (e : DeferredFragment SelectionSet) (d : PendingDeferral)
    (sub : SelectionSet) : Prop where
  source : e.source = d.source
  label : e.label = d.directive.label
  ifVariable : e.ifVariable = d.directive.ifVariable
  typeCondition : e.typeCondition = d.typeCondition
  condition : e.condition = .ofClause d.clause
  selectionSet : e.selectionSet = sub

theorem PendingDeferral.delivers_finish (d : PendingDeferral) (sub : SelectionSet) :
    (d.finish sub).Delivers d sub :=
  ⟨rfl, rfl, rfl, rfl, rfl, rfl⟩

/-- The selection set of a type has gathered what was found: the occurrences by their response
keys, in the order in which the keys came up, and the fragments that were set aside, in order. How
their own selections were built is up to `below`. -/
structure SelectionSet.Gathers (t : ObjectType) (below : PendingDeferral → SelectionSet → Prop)
    (set : SelectionSet) (fs : List Found) : Prop where
  objectType : set.objectType = t
  responseKeys : set.responseKeys = foundKeys fs
  selections : ∀ s ∈ set.selections,
    ∃ o os, occurrencesAt s.responseKey fs = o :: os ∧ s.Gathers t o os
  deferred : List.Forall₂ (fun d e => ∃ sub, below d sub ∧ e.Delivers d sub)
    (fs.filterMap Found.deferral?) set.deferred

/-- No occurrence is left out, and none is there twice. -/
theorem SelectionSet.Gathers.nodes_perm {t : ObjectType}
    {below : PendingDeferral → SelectionSet → Prop} {set : SelectionSet} {fs : List Found}
    (h : set.Gathers t below fs) :
    (set.selections.flatMap (·.nodes)).Perm ((occurrences fs).map (·.node.id)) := by
  have hnodes : set.selections.flatMap (·.nodes) =
      ((foundKeys fs).flatMap fun key => occurrencesAt key fs).map (·.node.id) := by
    rw [← h.responseKeys, SelectionSet.responseKeys, List.flatMap_map, List.map_flatMap]
    refine List.flatMap_congr fun s hs => ?_
    obtain ⟨o, os, hocc, hgathers⟩ := h.selections s hs
    rw [hgathers.nodes, hocc]
  rw [hnodes]
  exact (flatMap_occurrencesAt_perm fs).map _

namespace CompileInput

variable {σ : Type} {input : CompileInput σ}

/-- A finished draft of an entry has gathered the occurrences of the entry. -/
theorem gathers_ofFound {t : ObjectType} {s : Selection} {key : String} {o : FoundField}
    {os : List FoundField} (hkey : o.node.responseKey = key)
    (h : ∃ set, set.isSome = o.node.selectionSet.isSome ∧
      s.toSelectionDraft = { (CollectedField.ofFound o os).draft t key with selectionSet := set }) :
    s.Gathers t o os := by
  obtain ⟨draft, id⟩ := s
  obtain ⟨set, hset, hdraft⟩ := h
  obtain rfl : draft = _ := hdraft
  exact ⟨hkey.symm, rfl, rfl, rfl, hset, rfl, rfl, rfl⟩

/-- Finished in turn, the drafts of all that was found have gathered it. -/
theorem gathers_finished {t : ObjectType} {fs : List Found} {live : LiveOccurrences}
    {selections : List Selection} {jobs : List ChildJob}
    (h : Finished live (drafts (Collected.empty.mergeAll fs) t).values selections jobs) :
    selections.map (·.responseKey) = foundKeys fs ∧
      ∀ s ∈ selections, ∃ o os, occurrencesAt s.responseKey fs = o :: os ∧ s.Gathers t o os := by
  constructor
  · have hdrafts : (drafts (Collected.empty.mergeAll fs) t).values.map (·.responseKey) =
        (drafts (Collected.empty.mergeAll fs) t).keys := by
      rw [OrderedMap.values, OrderedMap.keys, List.map_map]
      exact List.map_congr_left fun e he => (drafts_keyed _ t e he).symm
    rw [h.responseKeys, hdrafts, drafts, OrderedMap.keys_mapValues, Collected.keys_mergeAll]
  · intro s hs
    obtain ⟨d, hd, set, hset, hdraft⟩ := exists_of_mem_right h.forall₂ hs
    obtain ⟨key, hkey⟩ := OrderedMap.mem_values_iff.1 hd
    rw [drafts, OrderedMap.get?_mapValues, Option.map_eq_some_iff] at hkey
    obtain ⟨f, hf, rfl⟩ := hkey
    obtain ⟨o, os, hocc, rfl⟩ := Collected.get?_collected_iff.1 hf
    have ho : o ∈ occurrencesAt key fs := hocc ▸ List.mem_cons_self
    have hgathers := gathers_ofFound (mem_occurrencesAt.1 ho).2 ⟨set, hset, hdraft⟩
    exact ⟨o, os, by rw [hgathers.responseKey, (mem_occurrencesAt.1 ho).2, hocc], hgathers⟩

/-- **A build without optimizers flattens its sources and groups what it finds.** There is exactly
one flattening of the sources: in order, the occurrences of fields in them and in the fragments
whose type condition the type meets, each with the clause that it is reached under, or none, and
the fragments set aside, which ask for it and can be reached. The selections built are those of
the response keys found, in order of their first occurrences, each with all occurrences of its
key; the deferred fragments are those set aside, each with its clause as condition and with what was
built of it. Every occurrence is a node of exactly one selection. -/
theorem gathered_of_build {n : Nat} {t : ObjectType} {sources : List ClausedSet}
    {path : List PathSegment} {s s' : CompileState σ} {set : SelectionSet}
    (h : Runs (input.build n t sources path []) s set s') :
    ∃ fs,
      (∀ fs', Setting.FlattensAll ⟨input.schema, input.fragments, s.view input.document⟩ t
        (· = true) sources fs' ↔ fs' = fs) ∧
      set.Gathers t (fun d sub => ∃ n s s',
        Runs (input.build n t [⟨d.selectionSet, .always⟩] path []) s sub s') fs ∧
      (set.selections.flatMap (·.nodes)).Perm ((occurrences fs).map (·.node.id)) := by
  cases n with
  | zero => exact absurd h not_runs_throw
  | succ n =>
      have hperform : Runs (perform (input.build (n + 1)) ⟨t, sources, path, []⟩) s set s' := h
      obtain ⟨s₁, s₂, s₃, s₄, c, deferred, m, selections, jobs, hp, -, rfl⟩ :=
        runs_build_succ.1 hperform
      obtain ⟨memory, hwalk, -⟩ := runs_collect.1 hp.collect
      have hanswers : (input.scope ⟨input.schema, t, path⟩ [] s).Answers (· = true) :=
        ⟨fun _ _ _ => rfl, fun _ _ => rfl⟩
      obtain ⟨fs, hfs, rfl⟩ := CollectScope.collectAll_flattens hanswers hwalk
      obtain ⟨rfl, -⟩ := runs_pure.1 hp.optimize
      obtain ⟨hkeys, hselections⟩ := gathers_finished (finished_of_runs hp.finish)
      have hgathers : SelectionSet.Gathers t (fun d sub => ∃ n s s',
          Runs (input.build n t [⟨d.selectionSet, .always⟩] path []) s sub s')
          ⟨t, selections, deferred⟩ fs := by
        refine ⟨rfl, hkeys, hselections, ?_⟩
        have hbuilt := forall₂_of_runs_mapM hp.deferrals
        rw [Collected.deferrals_mergeAll] at hbuilt
        refine hbuilt.imp fun d e ⟨s, s', hrun⟩ => ?_
        obtain ⟨sub, _, hsub, hfinish⟩ := runs_bind.1 hrun
        obtain ⟨rfl, -⟩ := runs_pure.1 hfinish
        exact ⟨sub, ⟨n, s, _, hsub⟩, d.delivers_finish sub⟩
      exact ⟨fs, fun fs' => ⟨fun hfs' => hfs'.unique (by simp) hfs, fun heq => heq ▸ hfs⟩,
        hgathers, hgathers.nodes_perm⟩

end CompileInput

namespace Linked

open Syntax

/-- Links that come up again: in fragments that are entered, where they can never be reached, and
after a fragment that is set aside under a condition. -/
def repeated : ExecutableDocument :=
  let never : Directive := ⟨"skip", [("if", .boolean true)], here⟩
  let later : List Directive := [⟨"include", [("if", .var "a")], here⟩,
    ⟨"defer", [("if", .var "c"), ("label", .string "rest")], here⟩]
  [query [select "next" [] [select "__typename" [] []], .spread ⟨"Rest", [], here⟩,
      .spread ⟨"Rest", later, here⟩, select "__typename" [] [],
      .inlineFragment ⟨some "Query", [never], here⟩ here [select "next" [] [select "next" [] []]],
      .inlineFragment ⟨some "Leaf", [], here⟩ here [select "next" [] []]],
   fragment "Rest" [select "next" [] [select "__typename" [] []]]]

def repeatedDocument : Document := okValue (Document.build none repeated) (by decide +kernel)

def repeatedInput : CompileInput Journal :=
  ⟨schema, repeatedDocument, okValue (FragmentIndex.build repeatedDocument) (by decide +kernel),
    .empty⟩

def repeatedRoot : ObjectType := (schema.objectType? "Query").get (by decide +kernel)

/-- The selections of the operation, read twice, the second time under a condition. -/
def repeatedSources : List ClausedSet :=
  repeatedDocument.operations.flatMap fun o =>
    [⟨o.selectionSet, .always⟩, ⟨o.selectionSet, ⟨[.skipIf "b"]⟩⟩]

/-- Whether the deferred fragment is that of the operation, under some clause. -/
def isLater (e : DeferredFragment SelectionSet) (clause : Clause) : Bool :=
  e.source = .spread "Rest" ⟨1⟩ && e.label = some "rest" && e.ifVariable = some "c" &&
    e.typeCondition = some "Node" && e.condition = .anyOf [clause] &&
    e.selectionSet.responseKeys = ["next"]

theorem gathered_repeated : ∃ set s',
    Runs (repeatedInput.build 10 repeatedRoot repeatedSources [] [])
      (repeatedInput.start ⟨0⟩ []) set s' ∧
    (set.selections.map (·.nodes.length) = [6, 2] ∧ set.deferred.length = 2) ∧
    List.Forall₂ (fun e clause => isLater e clause = true) set.deferred
      [⟨[.includeIf "a"]⟩, ⟨[.includeIf "a", .skipIf "b"]⟩] ∧
    ∃ fs,
      (∀ fs', Setting.FlattensAll ⟨schema, repeatedInput.fragments,
          (repeatedInput.start ⟨0⟩ []).view repeatedDocument⟩ repeatedRoot
        (· = true) repeatedSources fs' ↔ fs' = fs) ∧
      set.Gathers repeatedRoot (fun d sub => ∃ n s s',
        Runs (repeatedInput.build n repeatedRoot [⟨d.selectionSet, .always⟩] [] []) s sub s') fs ∧
      (set.selections.flatMap (·.nodes)).Perm ((occurrences fs).map (·.node.id)) := by
  obtain ⟨set, s', h, htest⟩ := exists_eq_ok_and
    (x := (repeatedInput.build 10 repeatedRoot repeatedSources [] []).run.run
      (repeatedInput.start ⟨0⟩ []))
    (t := fun set => (set.selections.map (·.nodes.length) = [6, 2] ∧ set.deferred.length = 2) ∧
      List.Forall₂ (fun e clause => isLater e clause = true) set.deferred
        [⟨[.includeIf "a"]⟩, ⟨[.includeIf "a", .skipIf "b"]⟩])
    (by decide +kernel)
  obtain ⟨hlengths, hlater⟩ := of_decide_eq_true htest
  exact ⟨set, s', h, hlengths, hlater, CompileInput.gathered_of_build h⟩

end Linked

end QueryPlan
