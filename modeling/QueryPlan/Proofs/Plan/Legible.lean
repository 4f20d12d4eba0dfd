import QueryPlan.Proofs.Document.Fragments
import QueryPlan.Proofs.Document.Legible
import QueryPlan.Proofs.Plan.Inherited
import QueryPlan.Proofs.Plan.Resolved
import QueryPlan.Proofs.Plan.Terminates

/-!
# Names in plans are on one line

Whatever a plan is printed from, apart from the values of arguments and the labels of deferred
fragments, goes back to names in the document, in syntax that was put in, or in the schema. If none
of these holds a line feed, then no response key, no field, no variable of a condition and no type
condition in the plan does (`CompileInput.legible_of_compileWithin`).
-/

set_option autoImplicit false

namespace QueryPlan

open QueryPlan.Text

/-! ## Conditions -/

theorem Syntax.Arguments.Legible.get? {arguments : Syntax.Arguments} (h : arguments.Legible)
    {name : String} {v : Syntax.Value} (hv : arguments.get? name = some v) : v.Legible := by
  obtain ⟨a, ha, rfl⟩ := Option.map_eq_some_iff.1 hv
  exact (h a (List.mem_of_find?_eq_some ha)).2

def Clause.Legible (c : Clause) : Prop := ∀ x ∈ c.conditions, OneLine x.var

def IncludeCondition.Legible (i : IncludeCondition) : Prop := ∀ c ∈ i.clauses, c.Legible

namespace Clause.Legible

variable {c c' : Clause}

theorem and {x : Condition} (h : c.Legible) (hx : OneLine x.var) (hand : c.and x = some c') :
    c'.Legible := by
  unfold Clause.and at hand
  split at hand
  · cases hand
  · cases hand
    intro y hy
    rcases mem_insertSorted.1 hy with rfl | hy
    · exact hx
    · exact h y hy

theorem andDirective {d : DirectiveNode} (h : c.Legible) (hd : d.Legible)
    (hand : c.andDirective d = some c') : c'.Legible := by
  unfold Clause.andDirective at hand
  split at hand
  · cases hand
    exact h
  · split at hand
    · split at hand
      · cases hand
      · cases hand
        exact h
    · next v hv =>
        have hvar : (Syntax.Value.var v).Legible := hd.get? hv
        cases hvar with
        | var hv => exact h.and hv hand
    · cases hand
      exact h

theorem andDirectives {ds : List DirectiveNode} (h : c.Legible) (hds : ∀ d ∈ ds, d.Legible)
    (hand : c.andDirectives ds = some c') : c'.Legible :=
  foldlM_induct Clause.Legible (fun d hd _ _ hc hone => hc.andDirective (hds d hd) hone) h hand

end Clause.Legible

theorem legible_reachedUnder {clause : Option Clause} {ds : List DirectiveNode}
    (h : ∀ c ∈ clause, c.Legible) (hds : ∀ d ∈ ds, d.Legible) :
    ∀ c ∈ reachedUnder clause ds, c.Legible := by
  intro c hc
  obtain ⟨c₁, hclause, hand⟩ := Option.bind_eq_some_iff.1 hc
  exact (h c₁ hclause).andDirectives hds hand

theorem IncludeCondition.Legible.addClause {i : IncludeCondition} {c : Clause} (h : i.Legible)
    (hc : c.Legible) : (i.addClause c).Legible := by
  unfold IncludeCondition.addClause
  cases i with
  | always => exact h
  | anyOf clauses =>
      dsimp only
      split
      · exact fun x hx => absurd hx List.not_mem_nil
      · split
        · exact h
        · refine List.forall_mem_append.2 ⟨fun x hx => ?_, List.forall_mem_singleton.2 hc⟩
          exact h x (List.mem_of_mem_filter hx)

theorem IncludeCondition.legible_never : never.Legible := fun _ h => absurd h List.not_mem_nil

theorem IncludeCondition.Legible.foldl_addClause {i : IncludeCondition} {cs : List Clause}
    (h : i.Legible) (hcs : ∀ c ∈ cs, c.Legible) :
    (cs.foldl IncludeCondition.addClause i).Legible := by
  induction cs generalizing i with
  | nil => exact h
  | cons c cs ih =>
      rw [List.forall_mem_cons] at hcs
      exact ih (h.addClause hcs.1) hcs.2

theorem IncludeCondition.legible_ofClause {c : Clause} (h : c.Legible) :
    (ofClause c).Legible :=
  legible_never.addClause h

theorem DeferDirective.legible_ifVariable {ds : List DirectiveNode} {d : DeferDirective}
    (hds : ∀ d ∈ ds, d.Legible) (h : ofDirectives? ds = some d) :
    ∀ v ∈ d.ifVariable, OneLine v := by
  obtain ⟨node, hnode, h⟩ := Option.bind_eq_some_iff.1 h
  have hargs : node.arguments.Legible := hds node (List.mem_of_find?_eq_some hnode)
  dsimp only at h
  split at h
  · cases h
  · next v hv =>
      cases h
      intro v' hv'
      cases hv'
      have hvar : (Syntax.Value.var v).Legible := hargs.get? hv
      cases hvar with
      | var hv => exact hv
  · cases h
    exact fun v hv => absurd hv (by simp)

/-! ## What is found -/

structure PendingDeferral.Legible (d : PendingDeferral) : Prop where
  ifVariable : ∀ v ∈ d.directive.ifVariable, OneLine v
  typeCondition : ∀ t ∈ d.typeCondition, OneLine t
  clause : d.clause.Legible

/-- A node that is found names its field. -/
structure FoundField.Legible (o : FoundField) : Prop where
  node : o.node.Legible
  field : o.field.name = o.node.name
  clause : ∀ c ∈ o.clause, c.Legible

def Found.Legible : Found → Prop
  | .field node f clause => FoundField.Legible ⟨node, f, clause⟩
  | .deferral d => d.Legible

/-- No name that is read in the setting holds a line feed. -/
structure Setting.Legible (g : Setting) : Prop where
  view : g.view.Legible
  fragment : ∀ {name f}, g.fragments.resolve? name = some f → OneLine f.typeCondition

namespace Setting

variable {g : Setting} {t : ObjectType} {answers : Bool → Prop} {fs : List Found}

theorem Legible.uses (h : g.Legible) {sel : SelectionNode} {use : FragmentUse}
    (huse : g.Uses sel use) :
    (∀ d ∈ use.directives, d.Legible) ∧ ∀ t ∈ use.typeCondition, OneLine t := by
  cases huse with
  | inlineFragment hn => exact ⟨(h.view.inlineFragment hn).directives,
      (h.view.inlineFragment hn).typeCondition⟩
  | spread hn hf =>
      refine ⟨h.view.spread hn, fun c hc => ?_⟩
      cases hc
      exact h.fragment hf

/-- Under a clause without line feeds nothing is found that has any. -/
theorem Legible.flattens (h : g.Legible) (ht : t.Named) {sels : List SelectionNode}
    {clause : Option Clause} (hflat : g.Flattens t answers sels clause fs)
    (hclause : ∀ c ∈ clause, c.Legible) : ∀ x ∈ fs, x.Legible := by
  induction hflat with
  | nil => exact List.forall_mem_nil _
  | field hn hf _ ih =>
      refine List.forall_mem_cons.2 ⟨?_, ih hclause⟩
      have hnode := h.view.field hn
      exact ⟨hnode, ht hf, legible_reachedUnder hclause hnode.directives⟩
  | passed _ _ ih => exact ih hclause
  | entered hopens _ _ _ ih ih' =>
      obtain ⟨hdirectives, -⟩ := h.uses (opens_iff.1 hopens).1
      exact List.forall_mem_append.2
        ⟨ih (legible_reachedUnder hclause hdirectives), ih' hclause⟩
  | deferred hopens hc hd _ _ ih =>
      obtain ⟨hdirectives, htypeCondition⟩ := h.uses (opens_iff.1 hopens).1
      refine List.forall_mem_cons.2 ⟨?_, ih hclause⟩
      exact ⟨DeferDirective.legible_ifVariable hdirectives hd, htypeCondition,
        legible_reachedUnder hclause hdirectives _ hc⟩

theorem Legible.flattensAll (h : g.Legible) (ht : t.Named) {sources : List ClausedSet}
    (hflat : g.FlattensAll t answers sources fs)
    (hsources : ∀ source ∈ sources, source.clause.Legible) : ∀ x ∈ fs, x.Legible := by
  induction hflat with
  | nil => exact List.forall_mem_nil _
  | cons hone _ ih =>
      rw [List.forall_mem_cons] at hsources
      refine List.forall_mem_append.2 ⟨h.flattens ht hone fun c hc => ?_, ih hsources.2⟩
      cases hc
      exact hsources.1

end Setting

/-! ## Selections and deferred fragments -/

structure SelectionDraft.Legible (d : SelectionDraft) : Prop where
  responseKey : OneLine d.responseKey
  field : OneLine d.field.name
  arguments : d.arguments.Legible
  condition : d.condition.Legible

structure DeferredFragment.Legible {σ : Type} (d : DeferredFragment σ) : Prop where
  ifVariable : ∀ v ∈ d.ifVariable, OneLine v
  typeCondition : ∀ t ∈ d.typeCondition, OneLine t
  condition : d.condition.Legible

/-- What a selection set is printed from, its own fragments aside. -/
structure SelectionSet.Legible (set : SelectionSet) : Prop where
  selections : ∀ s ∈ set.selections, s.toSelectionDraft.Legible
  deferred : ∀ d ∈ set.deferred, d.Legible

theorem FoundField.Legible.draft {o : FoundField} {os : List FoundField}
    (h : ∀ o' ∈ o :: os, o'.Legible) (t : ObjectType) :
    ((CollectedField.ofFound o os).draft t o.node.responseKey).Legible where
  responseKey := (h o List.mem_cons_self).node.responseKey
  field := by
    have ho := h o List.mem_cons_self
    show OneLine o.field.name
    rw [ho.field]
    exact ho.node.name
  arguments := (h o List.mem_cons_self).node.arguments
  condition := by
    refine IncludeCondition.legible_never.foldl_addClause fun c hc => ?_
    obtain ⟨o', ho', hclause⟩ := List.mem_filterMap.1 hc
    exact (h o' ho').clause c hclause

/-- A draft is made up of what was found, or of a node in view. -/
theorem SelectionDraft.Stems.legible {context : PlanContext} {fs : List Found} {view : SyntaxView}
    (ht : context.objectType.Named) (hfs : ∀ x ∈ fs, x.Legible) (hview : view.Legible)
    {d : SelectionDraft} (h : d.Stems context (Collected.empty.mergeAll fs) view) : d.Legible := by
  cases h with
  | collected mem =>
      obtain ⟨o, os, hocc, he⟩ := Collected.mem_entries_collected_iff.1 mem
      have hfound : ∀ o' ∈ o :: os, o'.Legible := fun o' ho' =>
        hfs _ (mem_occurrencesAt.1 (hocc ▸ ho')).1
      have hkey : o.node.responseKey = _ :=
        (mem_occurrencesAt.1 (hocc ▸ List.mem_cons_self (a := o))).2
      rw [he, ← hkey]
      exact FoundField.Legible.draft hfound context.objectType
  | internal eq =>
      obtain ⟨node, field, hn, hf, rfl⟩ := internalSelection_eq_ok_iff.1 eq
      have hnode := hview.field hn
      refine ⟨hnode.responseKey, ?_, hnode.arguments, fun c hc => absurd hc List.not_mem_nil⟩
      show OneLine field.name
      rw [ht hf]
      exact hnode.name

theorem SyntaxView.Legible.of_extends {v w : SyntaxView} (h : w.Legible) (hvw : v.Extends w) :
    v.Legible :=
  ⟨fun hn => h.field (hvw.field hn), fun hn => h.spread (hvw.spread hn),
    fun hn => h.inlineFragment (hvw.inlineFragment hn)⟩

namespace CompileInput

variable {σ : Type} {input : CompileInput σ} {p : Plan} {fuel : Nat} {task : BuildTask σ}
  {s s₁ s₂ s₃ s₄ s' : CompileState σ} {c : Collected}
  {deferred : List (DeferredFragment SelectionSet)} {m : SelectionMap}
  {selections : List Selection} {jobs : List ChildJob}

/-- The sources of a task are reached under clauses without line feeds. -/
def LegibleTask (task : BuildTask σ) : Prop := ∀ source ∈ task.sources, source.clause.Legible

/-- All names that the levels of a plan read are on one line. -/
structure LegibleLevels (input : CompileInput σ) (p : Plan) : Prop where
  schema : input.schema.Built
  document : input.document.Built
  lawful : input.pipeline.Lawful
  same : p.document = input.document
  view : p.view.Legible
  fragment : ∀ {name f}, input.fragments.resolve? name = some f → OneLine f.typeCondition

theorem LegibleLevels.found (hp : input.LegibleLevels p)
    (h : input.Level p fuel task s s₁ s₂ s₃ s₄ s' c deferred m selections jobs)
    (htask : LegibleTask task) :
    ∃ fs, c = Collected.empty.mergeAll fs ∧ ∀ x ∈ fs, x.Legible := by
  have hnamed := hp.schema.wellNamed
  obtain ⟨fs, hflat, hc⟩ := h.found
  have hextends := SyntaxView.extends_plan hp.same (h.grows_start hnamed hp.lawful)
  have hsetting : Setting.Legible
      ⟨input.schema, input.fragments, s.view input.document⟩ :=
    ⟨hp.view.of_extends hextends, hp.fragment⟩
  exact ⟨fs, hc, hsetting.flattensAll (h.sound.proper.named hnamed) hflat htask⟩

theorem LegibleLevels.handsDown (hp : input.LegibleLevels p) :
    input.HandsDown p LegibleTask := by
  constructor
  · intro fuel task s s₁ s₂ s₃ s₄ s' c deferred m selections jobs _ _ d _ source hsource
    -- a deferred fragment starts under the clause that always holds
    obtain rfl := List.mem_singleton.1 hsource
    exact fun x hx => absurd hx List.not_mem_nil
  · intro fuel task s s₁ s₂ s₃ s₄ s' c deferred m selections jobs hlevel htask job hjob s₅ t
      source hsource
    obtain ⟨fs, rfl, hfs⟩ := hp.found hlevel htask
    obtain ⟨o, ho, hclause, -⟩ := exists_of_mem_sourcesOf hsource
    rw [hclause]
    refine ((finished_of_runs hlevel.prepares.finish).job_occurrences
      (P := fun o => o.clause.Legible) (fun l hl o' ho' => ?_) (fun _ _ _ _ x hx => ?_) job hjob).2 o
      ho
    · obtain ⟨node, field, clause, hmem, rfl⟩ := exists_found_of_live hl ho'
      exact (hfs _ hmem).clause clause rfl
    · exact absurd hx List.not_mem_nil

/-- What a level leaves is without line feeds. -/
theorem LegibleLevels.level (hp : input.LegibleLevels p)
    (h : input.Level p fuel task s s₁ s₂ s₃ s₄ s' c deferred m selections jobs)
    (htask : LegibleTask task) : SelectionSet.Legible ⟨task.objectType, selections, deferred⟩ := by
  have hnamed := hp.schema.wellNamed
  obtain ⟨fs, rfl, hfs⟩ := hp.found h htask
  have hextends := SyntaxView.extends_plan hp.same (h.grows_optimize hnamed hp.lawful)
  constructor
  · intro sel hsel
    obtain ⟨d, hd, set, -, hdraft⟩ :=
      exists_of_mem_right (finished_of_runs h.prepares.finish).forall₂ hsel
    have hstems := stems_optimize h.sound.proper h.prepares.optimize d hd
    have hlegible := hstems.legible (h.sound.proper.named hnamed) hfs (hp.view.of_extends hextends)
    rw [hdraft]
    exact ⟨hlegible.responseKey, hlegible.field, hlegible.arguments, hlegible.condition⟩
  · intro e he
    obtain ⟨d, hd, -, set, -, rfl, -⟩ := h.deferral hnamed hp.lawful he
    have hlegible : d.Legible := hfs _ (Collected.mem_deferrals_collected.1 hd)
    exact ⟨hlegible.ifVariable, hlegible.typeCondition,
      IncludeCondition.legible_ofClause hlegible.clause⟩

end CompileInput

/-- What a plan is printed from is without line feeds, apart from values and labels. -/
structure Plan.Legible (p : Plan) : Prop where
  operation : p.operation.Legible
  type : ∀ {key type set}, p.selectionSet key type = .ok set → OneLine type
  part : ∀ {key type set}, p.selectionSet key type = .ok set → ∀ part ∈ set.parts, part.Legible

namespace CompileInput

variable {σ : Type} {input : CompileInput σ} {p : Plan}

/-- If no name in the document and no type of the schema holds a line feed, then nor does any name
in a plan that was compiled from them, whatever lawful optimizers have put in. -/
theorem legible_of_compileWithin (hschema : input.schema.Built)
    (htypes : ∀ {name t}, input.schema.objectType? name = some t → OneLine name)
    (hdocument : input.document.Built) (hlegible : input.document.Legible)
    (hindex : FragmentIndex.build input.document = .ok input.fragments)
    (hlawful : input.pipeline.Lawful) {bound : Nat} {name : Option String} {memory memory' : σ}
    (h : input.compileWithin bound name memory = (.ok p, memory')) : p.Legible := by
  have hcompiled := compiled_of_compileWithin hschema hdocument hlawful h
  obtain ⟨steps, hview⟩ := exists_runSteps h
  have hp : input.LegibleLevels p := {
    schema := hschema
    document := hdocument
    lawful := hlawful
    same := hcompiled.document
    view := by
      rw [hview]
      exact SyntaxView.legible_of_arenas hlegible.arena (SyntaxArena.legible_runSteps _ steps)
    fragment := fun hf => hlegible.fragment _ (FragmentIndex.indexes_of_build hindex hf).2 }
  refine ⟨hlegible.operation _ (Document.operation_mem hcompiled.operation), fun hset => ?_,
    fun hset part hpart => ?_⟩
  · obtain ⟨t, rfl, hmade⟩ := hcompiled.madeFor_of_selectionSet hschema.wellNamed hset
    exact htypes hmade.objectType
  · obtain ⟨n, task, t, u, hremains, htask⟩ := exists_remains_of_handsDown hschema hdocument hlawful
      hp.handsDown (fun _ _ source hsource => by
        obtain rfl := List.mem_singleton.1 hsource
        exact fun x hx => absurd hx List.not_mem_nil) h hset hpart
    obtain ⟨_, _, _, _, _, _, _, _, _, _, hlevel, rfl⟩ := hremains.level
    exact hp.level hlevel htask

end CompileInput

/-! ## What was read from texts -/

/-- The schema of some texts, each with its path if it has one. -/
def Schema.ofTexts (texts : List (Option String × String)) : Except SchemaError Schema := do
  (← texts.foldlM (fun b t => b.load t.1 t.2) SchemaBuilder.empty).build

/-- Texts make the schema of what they are read as. -/
theorem Schema.exists_ofSources {texts : List (Option String × String)} {schema : Schema}
    (h : ofTexts texts = .ok schema) :
    ∃ ss, ofSources ss = .ok schema ∧ (SchemaSource.all ss).Legible := by
  obtain ⟨b, hb, hbuild⟩ := ok_bind_iff.1 h
  have hloaded : ∃ ss, SchemaBuilder.ofSources ss = .ok b ∧ (SchemaSource.all ss).Legible := by
    refine foldlM_ok_induct (fun b => ∃ ss, SchemaBuilder.ofSources ss = .ok b ∧
      (SchemaSource.all ss).Legible) ?_ ⟨[], rfl, fun x hx => absurd hx List.not_mem_nil⟩ hb
    rintro b t b' ⟨ss, hss, hlegible⟩ hload
    cases hread : Syntax.SchemaDocument.ofSource? t.2 with
    | none =>
        rw [SchemaBuilder.load, hread] at hload
        cases hload
    | some definitions =>
        rw [SchemaBuilder.load_eq_addSource b t.1 hread] at hload
        refine ⟨ss ++ [⟨t.1, definitions⟩], ?_, ?_⟩
        · rw [SchemaBuilder.ofSources, List.foldlM_append]
          exact ok_bind_iff.2 ⟨b, hss, ok_bind_iff.2 ⟨b', hload, rfl⟩⟩
        · rw [SchemaSource.all, List.flatMap_append, List.flatMap_singleton]
          exact List.forall_mem_append.2 ⟨hlegible, Syntax.SchemaDocument.legible_of_source hread⟩
  obtain ⟨ss, hss, hlegible⟩ := hloaded
  exact ⟨ss, ofSources_eq_ok_iff.2 ⟨b, hss, hbuild⟩, hlegible⟩

theorem Schema.built_of_texts {texts : List (Option String × String)} {schema : Schema}
    (h : ofTexts texts = .ok schema) : schema.Built := by
  obtain ⟨ss, hss, -⟩ := exists_ofSources h
  exact built_iff.2 ⟨ss, hss⟩

/-- The types of a schema that was read from texts have names without line feeds. -/
theorem Schema.oneLine_objectType {ss : List SchemaSource} {schema : Schema}
    (h : ofSources ss = .ok schema) (hlegible : (SchemaSource.all ss).Legible) {name : String}
    {t : ObjectType} (ht : schema.objectType? name = some t) : OneLine name := by
  obtain ⟨u, hu, -⟩ := Option.bind_eq_some_iff.1 ht
  have hname : name ∈ (SchemaSource.all ss).typeNames := by
    rw [← (madeFrom_of_ofSources h).2.keys_types]
    exact OrderedMap.mem_keys_iff.2 ⟨u, hu⟩
  rcases List.mem_append.1 hname with hname | hname
  · have hbuiltin : ∀ s ∈ BuiltinScalar.all, OneLine s.name := by decide
    obtain ⟨s, hs, rfl⟩ := List.mem_map.1 hname
    exact hbuiltin s hs
  · obtain ⟨d, hd, rfl⟩ := List.mem_map.1 hname
    obtain ⟨x, hx, hdefined⟩ := List.mem_filterMap.1 hd
    have hx := hlegible x hx
    cases x with
    | type declaration =>
        simp only [Syntax.SchemaDefinition.definedType?] at hdefined
        split at hdefined
        · cases hdefined
        · cases hdefined
          exact hx
    | _ => cases hdefined

/-- A plan of texts is without line feeds, apart from values and labels. -/
theorem CompileInput.legible_of_texts {σ : Type} {input : CompileInput σ} {p : Plan}
    {texts : List (Option String × String)} (hschema : Schema.ofTexts texts = .ok input.schema)
    {file : Option String} {text : String}
    (hdocument : Document.ofSource file text = .ok input.document)
    (hindex : FragmentIndex.build input.document = .ok input.fragments)
    (hlawful : input.pipeline.Lawful) {bound : Nat} {name : Option String} {memory memory' : σ}
    (h : input.compileWithin bound name memory = (.ok p, memory')) : p.Legible := by
  obtain ⟨ss, hss, hlegible⟩ := Schema.exists_ofSources hschema
  exact legible_of_compileWithin (Schema.built_iff.2 ⟨ss, hss⟩)
    (fun ht => Schema.oneLine_objectType hss hlegible ht) (Document.built_of_source hdocument)
    (Document.legible_of_source hdocument) hindex hlawful h

end QueryPlan
