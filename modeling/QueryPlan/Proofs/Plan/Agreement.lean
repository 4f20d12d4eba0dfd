import QueryPlan.Proofs.Plan.Place
import QueryPlan.Proofs.Plan.WellTyped

/-!
# Evaluating a plan agrees with reading the syntax

A plan decides once, per concrete type, under which clauses each field is included; reading the
syntax looks at every directive for every request. Where nothing is deferred, both select the
same. Walking down a plan, the sources that a selection set was made from and whose clauses hold
are exactly the selection sets that the reading merges at that place (`Follows`); each step of a
walk keeps this, and what is included can then be compared level by level.
-/

set_option autoImplicit false

namespace QueryPlan

variable {σ : Type}

/-! ## What is compared -/

/-- No fragment of the document is deferred. -/
structure Document.DeferFree (d : Document) : Prop where
  spread : ∀ node ∈ d.syntaxArena.spreads, ∀ e ∈ node.directives, e.name ≠ "defer"
  inlineFragment : ∀ node ∈ d.syntaxArena.inlineFragments, ∀ e ∈ node.directives,
    e.name ≠ "defer"

/-- The selection sets that a walk through a plan meets: the root, and below an included
selection those for the types that its field can have. -/
inductive Plan.Walks (p : Plan) (schema : Schema) (vars : Variables) :
    Setting.ResponsePath → SelectionSet → Prop
  | root {set} : p.rootSelectionSet = .ok set → Walks p schema vars [] set
  | step {path set s key t below} :
      Walks p schema vars path set → s ∈ set.included vars → s.selectionSet = some key →
      t ∈ schema.possibleTypes s.field.type.innermost → p.selectionSet key t.name = .ok below →
      Walks p schema vars ((s.responseKey, t.name) :: path) below

/-! ## Documents without deferred fragments -/

namespace Document

variable {d : Document}

theorem DeferFree.ofDirectives? (hdefer : d.DeferFree) {schema : Schema}
    {fragments : FragmentIndex} {sel : SelectionNode} {use : FragmentUse}
    (huse : Setting.Uses ⟨schema, fragments, d.view⟩ sel use) :
    DeferDirective.ofDirectives? use.directives = none := by
  have hnone : ∀ ds : List DirectiveNode, (∀ e ∈ ds, e.name ≠ "defer") →
      DeferDirective.ofDirectives? ds = none := by
    intro ds hds
    have hfind : ds.find? (fun e => e.name = "defer") = none := by
      simpa using hds
    unfold DeferDirective.ofDirectives?
    rw [hfind]
    rfl
  cases huse with
  | @inlineFragment id node hn =>
      exact hnone _ (hdefer.inlineFragment node (mem_inlineFragments_of_view hn))
  | @spread id node fragment hn _ =>
      exact hnone _ (hdefer.spread node (mem_spreads_of_view hn))

/-- Nothing is set aside. -/
theorem DeferFree.not_deferral (hdefer : d.DeferFree) {schema : Schema}
    {fragments : FragmentIndex} {t : ObjectType} {answers : Bool → Prop} {fs : List Found}
    {sources : List ClausedSet}
    (h : Setting.FlattensAll ⟨schema, fragments, d.view⟩ t answers sources fs)
    (p : PendingDeferral) : .deferral p ∉ fs := by
  refine h.not_deferral (fun hopens hd => ?_) p
  rw [hdefer.ofDirectives? (Setting.opens_iff.1 hopens).1] at hd
  cases hd

end Document

/-! ## Sources and places -/

namespace CompileInput

variable {input : CompileInput σ} {variants : VariantMap} {vars : Variables}
  {rootType : ObjectType} {root : SelectionSetId} {path : Setting.ResponsePath}

/-- The sources of a task stand at a place of a response, and those whose clauses hold are all
that is merged there. -/
structure Sourced (input : CompileInput σ) (vars : Variables) (rootType : ObjectType)
    (root : SelectionSetId) (path : Setting.ResponsePath) (task : BuildTask σ) : Prop where
  static : input.Placed .static rootType root path task
  placed : input.Placed vars.reading rootType root path task
  covers : ∀ {set}, input.setting.At vars.keep rootType root path task.objectType set →
    ∃ c ∈ task.sources, c.selectionSet = set ∧ c.clause.isSatisfied vars = true

/-- The set was made by passive optimizers from the sources of a place. -/
def Follows (input : CompileInput σ) (variants : VariantMap) (vars : Variables)
    (rootType : ObjectType) (root : SelectionSetId) (path : Setting.ResponsePath)
    (set : SelectionSet) : Prop :=
  ∃ fuel task, input.MadeWithin variants fuel task set ∧ (∀ o ∈ task.optimizers, o.Passive) ∧
    input.Sourced vars rootType root path task

section Level

variable {below : BuildTask σ → SelectionSet → Prop} {task : BuildTask σ}
  {answers : Bool → Prop} {fs : List Found} {set : SelectionSet}

/-- Without deferral, all that is collected for the variables is an occurrence that is reached. -/
theorem Sourced.exists_occurrence (hsourced : input.Sourced vars rootType root path task)
    (hdefer : input.document.DeferFree)
    (hspelled : input.Spelled variants below task answers fs set) {source : SelectionSetId}
    {node : FieldNode}
    (hat : input.setting.At vars.keep rootType root path task.objectType source)
    (hcollects : input.setting.Collects vars.keep task.objectType
      (input.setting.view.selectionsOf source) node) :
    ∃ o ∈ occurrencesAt node.responseKey fs, o.node = node ∧
      vars.reading.holds o.clause = true := by
  obtain ⟨c, hc, rfl, hsat⟩ := hsourced.covers hat
  obtain ⟨f, hf, hbrings⟩ := (hspelled.flattens.brings_iff vars.reading node).2
    ⟨c, hc, hsat, hcollects⟩
  cases f with
  | field n field clause =>
      obtain ⟨rfl, hholds⟩ := hbrings
      exact ⟨⟨n, field, clause⟩, mem_occurrencesAt.2 ⟨hf, rfl⟩, rfl, hholds⟩
  | deferral p => exact absurd hf (hdefer.not_deferral hspelled.flattens p)

/-- The included fields of a set are those that are collected at its place. -/
theorem Sourced.included_iff (hsourced : input.Sourced vars rootType root path task)
    (hagree : input.setting.NamesAgree rootType root) (hdefer : input.document.DeferFree)
    (hspelled : input.Spelled variants below task answers fs set) (key : String) (field : Field) :
    (∃ s ∈ set.included vars, s.responseKey = key ∧ s.field = field) ↔
      ∃ source node, input.setting.At vars.keep rootType root path task.objectType source ∧
        input.setting.Collects vars.keep task.objectType
          (input.setting.view.selectionsOf source) node ∧
        node.responseKey = key ∧ task.objectType.field? node.name = some field := by
  constructor
  · rintro ⟨s, hs, rfl, rfl⟩
    have hmem : s ∈ set.selections := List.mem_of_mem_filter hs
    obtain ⟨o', ho', hholds⟩ := (hspelled.mem_included_iff hmem).1 hs
    obtain ⟨source, hat, hcollects⟩ := hsourced.placed.occurrence hspelled.flattens ho' hholds
    exact ⟨source, o'.node, hat, hcollects, (mem_occurrencesAt.1 ho').2,
      hsourced.static.selection_field hagree hspelled hmem ho'⟩
  · rintro ⟨source, node, hat, hcollects, rfl, hfield⟩
    obtain ⟨o', ho', rfl, hholds⟩ :=
      hsourced.exists_occurrence hdefer hspelled hat hcollects
    obtain ⟨s, hs, hkey⟩ := hspelled.exists_included_iff.2 ⟨o', ho', hholds⟩
    -- the selection has the field that all its occurrences share
    have hsame := hsourced.static.selection_field hagree hspelled
      (List.mem_of_mem_filter hs) (hkey ▸ ho')
    rw [hfield, Option.some_inj] at hsame
    exact ⟨s, hs, hkey, hsame.symm⟩

/-- The sub-selections of an included selection stand at the place below it. -/
theorem Sourced.sub (hschema : input.schema.WellNamed) (hdocument : input.document.Closed)
    (hsourced : input.Sourced vars rootType root path task)
    (hagree : input.setting.NamesAgree rootType root) (hdefer : input.document.DeferFree)
    (hspelled : input.Spelled variants below task answers fs set) {s : Selection}
    (hs : s ∈ set.included vars) {o : FoundField} {os : List FoundField}
    (hocc : occurrencesAt s.responseKey fs = o :: os) {t : ObjectType}
    (ht : t ∈ input.schema.possibleTypes o.field.type.innermost) :
    input.Sourced vars rootType root ((s.responseKey, t.name) :: path)
      (input.subTask task (o :: os) s.responseKey o.field t) := by
  refine ⟨hsourced.static.sub hdocument hsourced.static hagree hspelled.flattens hspelled.within
      hocc ht,
    hsourced.placed.sub hdocument hsourced.static hagree hspelled.flattens hspelled.within hocc ht,
    fun {inner} hat => ?_⟩
  -- what stands below is the sub-selection of a node that is collected at this place
  obtain ⟨o₀, ho₀, hholds₀⟩ := (hspelled.mem_included_iff (List.mem_of_mem_filter hs)).1 hs
  obtain ⟨source₀, hat₀, -⟩ := hsourced.placed.occurrence hspelled.flattens ho₀ hholds₀
  generalize hpath : ((s.responseKey, t.name) :: path : Setting.ResponsePath) = path' at hat
  cases hat with
  | root => cases hpath
  | @step path t₁ source node field t₂ inner hat hcollects hf hinner ht₂ =>
      obtain ⟨hstep, rfl⟩ := List.cons.inj hpath
      have hkey : s.responseKey = node.responseKey := congrArg Prod.fst hstep
      obtain rfl := hat.type_unique hschema hat₀
      obtain ⟨o', ho', rfl, hholds⟩ :=
        hsourced.exists_occurrence hdefer hspelled hat hcollects
      obtain ⟨c, hclause, hsat⟩ := (Option.any_eq_true _ _).1 hholds
      rw [← hkey, hocc] at ho'
      exact ⟨⟨inner, c⟩, mem_subTask_sources.2 ⟨o', ho', hclause, hinner⟩, rfl, hsat⟩

end Level

/-! ## Walks -/

variable {p : Plan} {bound : Nat} {name : Option String} {set : SelectionSet}

/-- A set that follows a place is spelled out by what was found there. -/
theorem Follows.spelled (hdocument : input.document.Closed)
    (hfragments : input.fragments.Within input.document)
    (h : input.Follows variants vars rootType root path set) :
    ∃ fuel task fs, (∀ o ∈ task.optimizers, o.Passive) ∧
      input.Sourced vars rootType root path task ∧
      input.Spelled variants (input.MadeWithin variants fuel) task (fun _ => True) fs set := by
  obtain ⟨fuel, task, hmade, hpassive, hsourced⟩ := h
  obtain ⟨n, hmade⟩ := hmade.made
  obtain ⟨fs, hspelled⟩ := hmade.spelled hdocument hfragments hpassive
    (fun _ => CollectScope.answers_any _) hsourced.static.has
  exact ⟨n, task, fs, hpassive, hsourced, hspelled⟩

/-- The root of a plan follows the root of its operation. -/
theorem Compiled.follows (hdocument : input.document.Closed) (hpassive : input.pipeline.Passive)
    (h : input.Compiled bound name p) (vars : Variables) :
    ∃ set, p.rootSelectionSet = .ok set ∧
      input.Follows p.variants vars p.rootType p.root [] set := by
  obtain ⟨set, hset, hmade⟩ := h.exists_root
  have hroot : input.document.Has p.root :=
    hdocument.operation p.operation (Document.operation_mem h.operation)
  refine ⟨set, hset, bound, _, hmade, hpassive.general,
    ⟨placed_root hroot, placed_root hroot, fun hat => ?_⟩⟩
  obtain ⟨-, rfl⟩ := Setting.at_root_iff.1 hat
  exact ⟨_, List.mem_singleton_self _, rfl, rfl⟩

/-- Each step of a walk finds a selection set, and goes on to follow the place below. -/
theorem Follows.step (hschema : input.schema.WellNamed) (hdocument : input.document.Closed)
    (hfragments : input.fragments.Within input.document) (hpassive : input.pipeline.Passive)
    (hdefer : input.document.DeferFree) (hagree : input.setting.NamesAgree rootType root)
    (h : input.Follows p.variants vars rootType root path set) {s : Selection}
    (hs : s ∈ set.included vars) {key : SelectionSetId} (hkey : s.selectionSet = some key)
    {t : ObjectType} (ht : t ∈ input.schema.possibleTypes s.field.type.innermost) :
    ∃ below, p.selectionSet key t.name = .ok below ∧
      input.Follows p.variants vars rootType root ((s.responseKey, t.name) :: path) below := by
  obtain ⟨fuel, task, fs, hoptimizers, hsourced, hspelled⟩ := h.spelled hdocument hfragments
  obtain ⟨o, os, v, hocc, hfield, hv, hforall⟩ :=
    hspelled.child (List.mem_of_mem_filter hs) hkey
  rw [hfield] at ht
  obtain ⟨below, hbelow, hmade⟩ := Plan.exists_selectionSet hv hforall ht
  -- the set under the key was made from what stands at the place below
  exact ⟨below, hbelow, fuel, _, hmade, passive_subTask hpassive hoptimizers,
    hsourced.sub hschema hdocument hagree hdefer hspelled hs hocc ht⟩

/-- Wherever a walk through a plan leads, the set there follows its place. -/
theorem Compiled.follows_of_walks (hschema : input.schema.WellNamed)
    (hdocument : input.document.Closed) (hfragments : input.fragments.Within input.document)
    (hpassive : input.pipeline.Passive) (hdefer : input.document.DeferFree)
    (h : input.Compiled bound name p) (hagree : input.setting.NamesAgree p.rootType p.root)
    (hwalk : p.Walks input.schema vars path set) :
    input.Follows p.variants vars p.rootType p.root path set := by
  induction hwalk with
  | root hroot =>
      obtain ⟨set', hroot', hfollows⟩ := h.follows hdocument hpassive vars
      rw [hroot, Except.ok.injEq] at hroot'
      exact hroot' ▸ hfollows
  | step _ hs hkey ht hbelow ih =>
      obtain ⟨below, hbelow', hfollows⟩ :=
        ih.step hschema hdocument hfragments hpassive hdefer hagree hs hkey ht
      rw [hbelow, Except.ok.injEq] at hbelow'
      exact hbelow' ▸ hfollows

/-- **Evaluating a plan agrees with reading the syntax.** Compile an operation of a document
without deferred fragments and without optimizers, and walk the plan for any variables. Each
lookup of the walk succeeds; and wherever it leads, the response keys and fields that are
included are those of the nodes that the syntax gives for these variables at that place. -/
theorem included_iff_collects (hschema : input.schema.Built) (hdocument : input.document.Built)
    (hfragments : FragmentIndex.build input.document = .ok input.fragments)
    (hdefer : input.document.DeferFree) (hpipeline : input.pipeline = .empty)
    {memory memory' : σ} (h : input.compileWithin bound name memory = (.ok p, memory'))
    (hagree : input.setting.NamesAgree p.rootType p.root) (vars : Variables) :
    (∃ set, p.rootSelectionSet = .ok set) ∧
    ∀ path set, p.Walks input.schema vars path set →
      (∀ key field, (∃ s ∈ set.included vars, s.responseKey = key ∧ s.field = field) ↔
        ∃ source node,
          input.setting.At vars.keep p.rootType p.root path set.objectType source ∧
          input.setting.Collects vars.keep set.objectType
            (input.setting.view.selectionsOf source) node ∧
          node.responseKey = key ∧ set.objectType.field? node.name = some field) ∧
      ∀ s ∈ set.included vars, ∀ key, s.selectionSet = some key →
        ∀ t ∈ input.schema.possibleTypes s.field.type.innermost,
          ∃ below, p.selectionSet key t.name = .ok below := by
  have hnamed := hschema.wellNamed
  have hclosed := hdocument.closed
  have hwithin : input.fragments.Within input.document :=
    FragmentIndex.within_of_build hclosed hfragments
  have hpassive : input.pipeline.Passive := hpipeline ▸ Pipeline.passive_empty
  have hcompiled := compiled_of_compileWithin hschema hdocument hpassive.lawful h
  constructor
  · obtain ⟨set, hroot, -⟩ := hcompiled.follows hclosed hpassive vars
    exact ⟨set, hroot⟩
  · intro path set hwalk
    have hfollows :=
      hcompiled.follows_of_walks hnamed hclosed hwithin hpassive hdefer hagree hwalk
    constructor
    · obtain ⟨fuel, task, fs, -, hsourced, hspelled⟩ := hfollows.spelled hclosed hwithin
      rw [hspelled.objectType]
      exact hsourced.included_iff hagree hdefer hspelled
    · intro s hs key hkey t ht
      obtain ⟨below, hbelow, -⟩ :=
        hfollows.step hnamed hclosed hwithin hpassive hdefer hagree hs hkey ht
      exact ⟨below, hbelow⟩

end CompileInput

namespace Linked

open Syntax

/-- Two occurrences of one link under conditions of their own, one of them in a fragment. -/
def conditionalDefinitions : ExecutableDocument :=
  let test (name v : String) : Directive := ⟨name, [("if", .var v)], here⟩
  [query [select "next" [test "include" "a"] [select "__typename" [] []],
    .spread ⟨"Rest", [test "skip" "b"], here⟩],
   fragment "Rest" [select "next" [] [select "__typename" [test "skip" "a"] [],
    select "next" [] [select "__typename" [] []]]]]

def conditional : Document :=
  okValue (Document.build none conditionalDefinitions) (by decide +kernel)

theorem conditional_built : conditional.Built :=
  ⟨none, conditionalDefinitions, eq_ok_okValue (by decide +kernel)⟩

theorem conditional_deferFree : conditional.DeferFree := ⟨by decide +kernel, by decide +kernel⟩

def conditionalFragments : FragmentIndex :=
  okValue (FragmentIndex.build conditional) (by decide +kernel)

theorem conditionalFragments_eq : FragmentIndex.build conditional = .ok conditionalFragments := by
  unfold conditionalFragments
  exact eq_ok_okValue _

/-- The compilation of it without optimizers. -/
def plain : CompileInput Unit := ⟨schema, conditional, conditionalFragments, .empty⟩

theorem plain_namesAgree (rootType : ObjectType) (root : SelectionSetId) :
    plain.setting.NamesAgree rootType root :=
  (Setting.nodesAgree_of_fields (d := conditional) (by decide +kernel) rootType root).namesAgree

/-- The variable `a` is true, and no other. -/
def onlyA : Variables := fun v => some (v == "a")

theorem included_iff_collects_plain : ∃ p memory, plain.compileWithin 10 none () = (.ok p, memory) ∧
    (∃ set, p.rootSelectionSet = .ok set) ∧
    ∀ path set, p.Walks schema onlyA path set →
      (∀ key field, (∃ s ∈ set.included onlyA, s.responseKey = key ∧ s.field = field) ↔
        ∃ source node,
          plain.setting.At onlyA.keep p.rootType p.root path set.objectType source ∧
          plain.setting.Collects onlyA.keep set.objectType
            (plain.setting.view.selectionsOf source) node ∧
          node.responseKey = key ∧ set.objectType.field? node.name = some field) ∧
      ∀ s ∈ set.included onlyA, ∀ key, s.selectionSet = some key →
        ∀ t ∈ schema.possibleTypes s.field.type.innermost,
          ∃ below, p.selectionSet key t.name = .ok below := by
  obtain ⟨p, memory, h⟩ :=
    exists_eq_ok (x := plain.compileWithin 10 none ()) (by decide +kernel)
  have hschema : plain.schema.Built := schema_built
  have hdocument : plain.document.Built := conditional_built
  have hfragments : FragmentIndex.build plain.document = .ok plain.fragments :=
    conditionalFragments_eq
  have hdefer : plain.document.DeferFree := conditional_deferFree
  exact ⟨p, memory, h, CompileInput.included_iff_collects hschema hdocument hfragments hdefer rfl
    h (plain_namesAgree _ _) onlyA⟩

end Linked

end QueryPlan
