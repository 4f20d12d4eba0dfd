import QueryPlan.Proofs.Plan.Levels

/-!
# Every id of a plan resolves

Compiling does nothing to the synthetic syntax but lower fields and copy selection sets
(`exists_runSteps`), so what ids mean while compiling they mean in the plan. There the nodes of
every selection, the fragments of every deferred one and the keys of all sub-selections resolve;
and a key lists what the first node of its selection has inside, whether the node has kept its own
selection set or it was copied.
-/

set_option autoImplicit false

namespace QueryPlan

variable {σ : Type}

/-! ## What compiling does to the synthetic syntax -/

/-- The second arena has come from the first by some steps. -/
def SyntaxArena.StepsTo (a b : SyntaxArena) : Prop := ∃ steps, b = a.runSteps steps

namespace SyntaxArena.StepsTo

variable {a b c : SyntaxArena}

theorem refl (a : SyntaxArena) : a.StepsTo a := ⟨[], rfl⟩

theorem trans (hab : a.StepsTo b) (hbc : b.StepsTo c) : a.StepsTo c := by
  obtain ⟨steps, rfl⟩ := hab
  obtain ⟨steps', rfl⟩ := hbc
  exact ⟨steps ++ steps', (a.runSteps_append steps steps').symm⟩

theorem lower (a : SyntaxArena) (source : String) : a.StepsTo (a.lowerFieldSource source).2 :=
  ⟨[.lower source], rfl⟩

theorem copy (a : SyntaxArena) (node : SelectionSetNode) :
    a.StepsTo (a.copySelectionSet node).2 :=
  ⟨[.copy node], rfl⟩

end SyntaxArena.StepsTo

theorem Conversation.stepsTo_run {α : Type} (c : Conversation α) (document a : SyntaxArena) :
    a.StepsTo (c.run document a).2 := by
  induction c generalizing a with
  | done result => exact .refl a
  | lower source next ih => exact (SyntaxArena.StepsTo.lower a source).trans (ih _ _ _)

theorem CompileState.stepsTo_claim (s : CompileState σ) (document : Document)
    (key : SelectionSetId) : s.synthetic.StepsTo (s.claim document key).2.synthetic := by
  unfold CompileState.claim
  split
  · exact .copy _ _
  · exact .refl _

theorem CompileState.stepsTo_reach (s : CompileState σ) (key : SelectionSetId) :
    s.synthetic.StepsTo (s.reach key).synthetic := by
  unfold CompileState.reach
  split
  · exact .refl _
  · exact .refl _

/-- Whatever result it comes to, the computation only takes steps on the synthetic syntax. -/
def TakesSteps {α : Type} (x : CompileM σ α) : Prop :=
  ∀ ⦃s a s'⦄, Runs x s a s' → s.synthetic.StepsTo s'.synthetic

namespace TakesSteps

variable {α β : Type} {x : CompileM σ α}

theorem pure (a : α) : TakesSteps (Pure.pure a : CompileM σ α) := by
  intro s b s' h
  obtain ⟨-, rfl⟩ := runs_pure.1 h
  exact .refl _

theorem throw (e : CompileError) : TakesSteps (MonadExcept.throw e : CompileM σ α) :=
  fun _ _ _ h => absurd h not_runs_throw

theorem bind {f : α → CompileM σ β} (hx : TakesSteps x) (hf : ∀ a, TakesSteps (f a)) :
    TakesSteps (x >>= f) := by
  intro s b s' h
  obtain ⟨a, s₁, hfirst, hrest⟩ := runs_bind.1 h
  exact (hx hfirst).trans (hf a hrest)

theorem modify {f : CompileState σ → CompileState σ}
    (hf : ∀ s : CompileState σ, s.synthetic.StepsTo (f s).synthetic) :
    TakesSteps (modify f : CompileM σ PUnit) := by
  intro s u s' h
  rw [runs_modify.1 h]
  exact hf s

theorem modifyGet {f : CompileState σ → α × CompileState σ}
    (hf : ∀ s : CompileState σ, s.synthetic.StepsTo (f s).2.synthetic) :
    TakesSteps (modifyGet f : CompileM σ α) := by
  intro s a s' h
  rw [(runs_modifyGet.1 h).2]
  exact hf s

theorem get : TakesSteps (get : CompileM σ (CompileState σ)) := by
  intro s a s' h
  rw [(runs_get.1 h).2]
  exact .refl _

theorem forM {f : α → CompileM σ PUnit} (hf : ∀ a, TakesSteps (f a)) (xs : List α) :
    TakesSteps (xs.forM f) := by
  induction xs with
  | nil => exact pure _
  | cons x xs ih => exact (hf x).bind fun _ => ih

theorem mapM {f : α → CompileM σ β} (hf : ∀ a, TakesSteps (f a)) (xs : List α) :
    TakesSteps (xs.mapM f) := by
  induction xs with
  | nil =>
      rw [List.mapM_nil]
      exact pure _
  | cons x xs ih =>
      rw [List.mapM_cons]
      exact (hf x).bind fun _ => ih.bind fun _ => pure _

theorem foldlM {f : β → α → CompileM σ β} (hf : ∀ b a, TakesSteps (f b a)) (xs : List α) (b : β) :
    TakesSteps (xs.foldlM f b) := by
  induction xs generalizing b with
  | nil => exact pure b
  | cons x xs ih =>
      rw [List.foldlM_cons]
      exact (hf b x).bind fun c => ih c

end TakesSteps

namespace CompileInput

variable {input : CompileInput σ}

theorem takesSteps_collect (context : PlanContext) (optimizers : List (Optimizer σ))
    (sources : List ClausedSet) : TakesSteps (input.collect context optimizers sources) := by
  intro s c s' h
  obtain ⟨memory, -, rfl⟩ := runs_collect.1 h
  exact .refl _

theorem takesSteps_applyOptimizer (context : PlanContext) (m : SelectionMap) (o : Optimizer σ) :
    TakesSteps (input.applyOptimizer context m o) := by
  intro s m' s' h
  obtain ⟨-, hrun⟩ := revised_applyOptimizer h
  have hsteps := (o.revise context (s.view input.document) m s.memory).stepsTo_run
    input.document.syntaxArena s.synthetic
  rw [hrun] at hsteps
  exact hsteps

theorem takesSteps_optimize (context : PlanContext) (optimizers : List (Optimizer σ))
    (m : SelectionMap) : TakesSteps (input.optimize context optimizers m) := by
  unfold optimize
  split
  · exact .pure m
  · refine (TakesSteps.foldlM (takesSteps_applyOptimizer context) optimizers m).bind fun m' => ?_
    cases misplaced? m' with
    | none => exact .pure m'
    | some e => exact .throw _

theorem takesSteps_finish (live : LiveOccurrences) (ds : List SelectionDraft) :
    TakesSteps (input.finish live ds) := by
  induction ds generalizing live with
  | nil => exact .pure _
  | cons d ds ih =>
      rw [finish]
      refine (TakesSteps.modifyGet fun s => .refl _).bind fun id => ?_
      cases d.selectionSet with
      | none => exact (ih live).bind fun _ => .pure _
      | some key =>
          have hclaim : TakesSteps (modifyGet fun s : CompileState σ =>
              s.claim input.document key) :=
            .modifyGet fun s => s.stepsTo_claim input.document key
          exact hclaim.bind fun key => (ih _).bind fun _ => .pure _

theorem takesSteps_compileVariant {build : Build σ}
    (hbuild : ∀ task, TakesSteps (perform build task)) (key : SelectionSetId) (t : ObjectType)
    (sources : List ClausedSet) (path : List PathSegment) (optimizers : List (Optimizer σ)) :
    TakesSteps (compileVariant build key t sources path optimizers) := by
  have hset : TakesSteps (build t sources path optimizers) :=
    hbuild ⟨t, sources, path, optimizers⟩
  exact (TakesSteps.modify fun s => s.stepsTo_reach key).bind fun _ =>
    hset.bind fun set => .modify fun s => .refl _

theorem takesSteps_compileChildren {build : Build σ}
    (hbuild : ∀ task, TakesSteps (perform build task)) (path : List PathSegment)
    (optimizers : List (Optimizer σ)) (job : ChildJob) :
    TakesSteps (input.compileChildren build path optimizers job) := by
  exact TakesSteps.get.bind fun s => (TakesSteps.modify fun s => s.stepsTo_reach job.key).bind
    fun _ => .forM (fun t => takesSteps_compileVariant hbuild ..) _

/-- A build only lowers fields and copies selection sets. -/
theorem takesSteps_build (fuel : Nat) (task : BuildTask σ) :
    TakesSteps (perform (input.build fuel) task) := by
  induction fuel generalizing task with
  | zero => exact .throw _
  | succ fuel ih =>
      refine (takesSteps_collect _ _ _).bind fun c => (TakesSteps.mapM (fun d => ?_) _).bind
        fun deferred => (takesSteps_optimize _ _ _).bind fun m =>
          (takesSteps_finish _ _).bind fun finished => ?_
      · exact (ih (task.deferral d)).bind fun set => .pure _
      · exact (TakesSteps.forM (takesSteps_compileChildren ih _ _) _).bind fun _ => .pure _

/-- The synthetic syntax of a plan is what some steps have made of none. -/
theorem exists_runSteps {bound : Nat} {name : Option String} {memory memory' : σ} {p : Plan}
    (h : input.compileWithin bound name memory = (.ok p, memory')) :
    ∃ steps, p.view = ⟨input.document.syntaxArena,
      input.document.syntaxArena.syntheticAfter.runSteps steps⟩ := by
  obtain ⟨operation, rootType, s, -, -, hrun, rfl, -⟩ := compileWithin_eq_ok_iff.1 h
  obtain ⟨steps, hsteps⟩ := takesSteps_compileVariant (takesSteps_build bound) _ _ _ _ _ hrun
  have hsynthetic : s.synthetic = input.document.syntaxArena.syntheticAfter.runSteps steps := hsteps
  refine ⟨steps, ?_⟩
  rw [← hsynthetic]
  rfl

end CompileInput

/-! ## What ids resolve to -/

/-- The fragment that a deferred one came from is in view. -/
def DeferredSource.Resolves (v : SyntaxView) : DeferredSource → Prop
  | spread name id => ∃ node, v.spread? id = some node ∧ node.fragmentName = name
  | inlineFragment id => ∃ node, v.inlineFragment? id = some node

/-- A key lists the selections that a field node has inside. -/
def SyntaxView.ListsInside (v : SyntaxView) (key : SelectionSetId) (id : FieldId) : Prop :=
  ∃ node inner set stored, v.field? id = some node ∧ node.selectionSet = some inner ∧
    v.selectionSet? inner = some set ∧ v.selectionSet? key = some stored ∧
    stored.selections = set.selections

/-- All ids in a part of a plan resolve, and a key lists what the first node of its selection has
inside. -/
structure SelectionSet.Resolved (v : SyntaxView) (set : SelectionSet) : Prop where
  nodes : ∀ sel ∈ set.selections, ∀ id ∈ sel.nodes, ∃ node, v.field? id = some node
  keys : ∀ sel ∈ set.selections, ∀ key, sel.selectionSet = some key →
    ∃ first, sel.nodes.head? = some first ∧ v.ListsInside key first
  sources : ∀ d ∈ set.deferred, d.source.Resolves v

/-- All ids that occur in a plan resolve. -/
structure Plan.Resolved (p : Plan) : Prop where
  keys : ∀ key ∈ p.variants.keys, ∃ set, p.view.selectionSet? key = some set
  parts : ∀ key type set, p.selectionSet key type = .ok set → ∀ part ∈ set.parts,
    part.Resolved p.view

/-- A key below some selection set of a plan is that of a selection in one of its parts. -/
theorem Plan.exists_selection_of_childKey {p : Plan} {child : SelectionSetId}
    (h : child ∈ p.childKeys) : ∃ key type set part sel, p.selectionSet key type = .ok set ∧
      part ∈ set.parts ∧ sel ∈ part.selections ∧ sel.selectionSet = some child := by
  obtain ⟨v, hv, h⟩ := List.mem_flatMap.1 h
  obtain ⟨set, hset, h⟩ := List.mem_flatMap.1 h
  obtain ⟨part, hpart, h⟩ := List.mem_flatMap.1 h
  obtain ⟨sel, hsel, hchild⟩ := List.mem_filterMap.1 h
  obtain ⟨e, he, rfl⟩ := List.mem_map.1 hv
  obtain ⟨e', he', rfl⟩ := List.mem_map.1 hset
  have hlookup : p.selectionSet e.1 e'.1 = .ok e'.2 := selectionSet_eq_ok_iff.2
    ⟨e.2, OrderedMap.get?_eq_some_iff.2 he, OrderedMap.get?_eq_some_iff.2 he'⟩
  exact ⟨e.1, e'.1, e'.2, part, sel, hlookup, hpart, hsel, hchild⟩

/-- What an arena that has grown resolves, it resolved before if it had the id. -/
theorem SyntaxArena.Extends.selectionSet?_of_lt {a b : SyntaxArena} (hab : a.Extends b)
    {id : SelectionSetId} {set : SelectionSetNode} (h : b.selectionSet? id = some set)
    (hlt : id.index < a.nextSelectionSetId.index) : a.selectionSet? id = some set := by
  have hbase : b.bases.selectionSets ≤ id.index := (SyntaxArena.atIndex?_eq_some_iff.1 h).1
  rw [hab.bases] at hbase
  have hsize : id.index - a.bases.selectionSets < a.selectionSets.size := by
    have hnext : id.index < a.bases.selectionSets + a.selectionSets.size := hlt
    omega
  have hbefore : a.selectionSet? id =
      some a.selectionSets[id.index - a.bases.selectionSets] :=
    SyntaxArena.atIndex?_eq_some_iff.2 ⟨hbase, Array.getElem?_eq_getElem hsize⟩
  have hafter := hab.selectionSet hbefore
  rw [h] at hafter
  rw [hbefore, hafter]

theorem SyntaxView.selectionSet?_of_lt {document a b : SyntaxArena} (hab : a.Extends b)
    {id : SelectionSetId} {set : SelectionSetNode}
    (h : SyntaxView.selectionSet? ⟨document, b⟩ id = some set)
    (hlt : id.index < a.nextSelectionSetId.index) :
    SyntaxView.selectionSet? ⟨document, a⟩ id = some set := by
  rw [SyntaxView.selectionSet?, Option.orElse_eq_orElse, Option.orElse_eq_or] at h ⊢
  rcases Option.or_eq_some_iff.1 h with hd | ⟨hnone, hsyn⟩
  · exact Option.or_eq_some_iff.2 (.inl hd)
  · exact Option.or_eq_some_iff.2 (.inr ⟨hnone, hab.selectionSet?_of_lt hsyn hlt⟩)

/-- What stands inside a field in view is in view, whatever steps were taken. -/
theorem SyntaxView.exists_inner {a : SyntaxArena} (ha : a.Closed) {steps : List SyntheticStep}
    {v : SyntaxView} (hv : v = ⟨a, a.syntheticAfter.runSteps steps⟩) {id : FieldId}
    {node : FieldNode} {inner : SelectionSetId} (hn : v.field? id = some node)
    (hinner : node.selectionSet = some inner) : ∃ set, v.selectionSet? inner = some set := by
  subst hv
  rw [SyntaxView.field?, Option.orElse_eq_orElse, Option.orElse_eq_or] at hn
  rcases Option.or_eq_some_iff.1 hn with hd | ⟨-, hsyn⟩
  · have hinner' : a.innerSet? (.field id) = some inner := by
      rw [SyntaxArena.innerSet?, hd]
      exact hinner
    obtain ⟨set, hset⟩ := ha.inner hinner'
    refine ⟨set, ?_⟩
    rw [SyntaxView.selectionSet?, hset]
    rfl
  · obtain ⟨set, hset⟩ := (SyntaxArena.accounted_runSteps a steps).exists_inner hsyn hinner
    have hnone := ((SyntaxView.follows_runSteps a steps).disjoint.selectionSet inner).resolve_right
      (hset ▸ Option.some_ne_none _)
    refine ⟨set, ?_⟩
    rw [SyntaxView.selectionSet?, show a.selectionSet? inner = none from hnone, hset]
    rfl

namespace Setting

variable {g : Setting} {t : ObjectType} {answers : Bool → Prop} {fs : List Found}

theorem Uses.resolves {sel : SelectionNode} {u : FragmentUse} (h : g.Uses sel u) :
    u.source.Resolves g.view := by
  cases h with
  | inlineFragment hn => exact ⟨_, hn⟩
  | spread hn hf => exact ⟨_, hn, rfl⟩

/-- The fragments that are set aside are in view. -/
theorem FlattensAll.resolves {sources : List ClausedSet}
    (h : g.FlattensAll t answers sources fs) {d : PendingDeferral} (hd : .deferral d ∈ fs) :
    d.source.Resolves g.view := by
  obtain ⟨_, -, horigin⟩ := h.origin hd
  cases horigin with
  | deferral hopens _ _ _ => exact (opens_iff.1 hopens).1.resolves

end Setting

theorem DeferredSource.Resolves.extend {v w : SyntaxView} (hvw : v.Extends w)
    {source : DeferredSource} (h : source.Resolves v) : source.Resolves w := by
  cases source with
  | spread name id =>
      obtain ⟨node, hn, hname⟩ := h
      exact ⟨node, hvw.spread hn, hname⟩
  | inlineFragment id =>
      obtain ⟨node, hn⟩ := h
      exact ⟨node, hvw.inlineFragment hn⟩

/-! ## What keys resolve to -/

theorem TakesSteps.extends {α : Type} {x : CompileM σ α} (hx : TakesSteps x)
    {s s' : CompileState σ} {a : α} (h : Runs x s a s') (document : Document) :
    (s.view document).Extends (s'.view document) := by
  obtain ⟨steps, hsteps⟩ := hx h
  refine SyntaxView.extends_of_synthetic ?_
  rw [hsteps]
  exact (s.synthetic.grows_runSteps steps).extends_

/-- Whether a key is new or its selection set has to be copied, the key that is taken lists the
same selections. -/
theorem CompileState.selections_claim {s : CompileState σ} {document : Document}
    (hfollows : (s.view document).Follows) {key : SelectionSetId} {set : SelectionSetNode}
    (h : (s.view document).selectionSet? key = some set) :
    ∃ stored, ((s.claim document key).2.view document).selectionSet? (s.claim document key).1 =
      some stored ∧ stored.selections = set.selections := by
  unfold CompileState.claim
  split
  · rw [h]
    obtain ⟨id, b, hcopy, -, hstored⟩ := hfollows.copies set
    have hcopy : s.synthetic.copySelectionSet set = (id, b) := hcopy
    dsimp only [Option.getD_some]
    rw [hcopy]
    exact ⟨_, hstored, rfl⟩
  · exact ⟨set, h, rfl⟩

namespace CompileInput

variable {input : CompileInput σ}

/-- A selection has the nodes of a draft, and its key lists what the draft has. -/
theorem finish_lists {live : LiveOccurrences} {ds : List SelectionDraft} {s s' : CompileState σ}
    {selections : List Selection} {jobs : List ChildJob}
    (hfollows : (s.view input.document).Follows)
    (hds : ∀ d ∈ ds, ∀ inner, d.selectionSet = some inner →
      ∃ set, (s.view input.document).selectionSet? inner = some set)
    (hrun : Runs (input.finish live ds) s (selections, jobs) s') :
    ∀ sel ∈ selections, ∃ d ∈ ds, sel.nodes = d.nodes ∧ ∀ key, sel.selectionSet = some key →
      ∃ inner set stored, d.selectionSet = some inner ∧
        (s'.view input.document).selectionSet? inner = some set ∧
        (s'.view input.document).selectionSet? key = some stored ∧
        stored.selections = set.selections := by
  induction ds generalizing live s selections jobs with
  | nil =>
      obtain ⟨rfl, -, -⟩ := runs_finish_nil.1 hrun
      exact fun sel hsel => absurd hsel List.not_mem_nil
  | cons d ds ih =>
      rw [List.forall_mem_cons] at hds
      cases hd : d.selectionSet with
      | none =>
          obtain ⟨rest, hrest, rfl⟩ := (runs_finish_leaf hd).1 hrun
          intro sel hsel
          rcases List.mem_cons.1 hsel with rfl | hsel
          · refine ⟨d, List.mem_cons_self, rfl, fun key hkey => ?_⟩
            exact absurd (hkey.symm.trans hd) (Option.some_ne_none key)
          · obtain ⟨e, he, hfrom⟩ := ih (s := takeId s) hfollows hds.2 hrest sel hsel
            exact ⟨e, List.mem_cons_of_mem _ he, hfrom⟩
      | some inner =>
          obtain ⟨key, s₁, rest, jobs', hclaim, hrest, rfl, rfl⟩ := (runs_finish_inner hd).1 hrun
          have hs₁ : s₁ = ((takeId s).claim input.document inner).2 :=
            (congrArg Prod.snd hclaim).symm
          obtain ⟨steps, hsteps⟩ := (takeId s).stepsTo_claim input.document inner
          have hgrows : s.synthetic.Grows s₁.synthetic := by
            rw [hs₁, hsteps]
            exact SyntaxArena.grows_runSteps _ steps
          have hextends : (s.view input.document).Extends (s₁.view input.document) :=
            SyntaxView.extends_of_synthetic hgrows.extends_
          have hrest' := (takesSteps_finish _ _).extends hrest input.document
          intro sel hsel
          rcases List.mem_cons.1 hsel with rfl | hsel
          · refine ⟨d, List.mem_cons_self, rfl, fun key' hkey' => ?_⟩
            obtain ⟨set, hset⟩ := hds.1 inner hd
            obtain ⟨stored, hstored, hsame⟩ :=
              CompileState.selections_claim (s := takeId s) hfollows hset
            rw [hclaim] at hstored
            obtain rfl := Option.some.inj hkey'
            exact ⟨inner, set, stored, hd, hrest'.selectionSet (hextends.selectionSet hset),
              hrest'.selectionSet hstored, hsame⟩
          · have hfollows₁ : (s₁.view input.document).Follows :=
              hgrows.extends_.bases.trans hfollows
            obtain ⟨e, he, hfrom⟩ := ih hfollows₁ (fun e he inner' hinner' => by
              obtain ⟨set, hset⟩ := hds.2 e he inner' hinner'
              exact ⟨set, hextends.selectionSet hset⟩) hrest sel hsel
            exact ⟨e, List.mem_cons_of_mem _ he, hfrom⟩

/-- The nodes of a draft are in view, and the first one has inside what the draft has. -/
theorem exists_first_of_stems {fs : List Found} {view : SyntaxView} {context : PlanContext}
    (hfs : ∀ {node field clause}, Found.field node field clause ∈ fs →
      view.field? node.id = some node) {d : SelectionDraft}
    (h : d.Stems context (Collected.empty.mergeAll fs) view) :
    (∀ id ∈ d.nodes, ∃ node, view.field? id = some node) ∧
      ∃ first node, d.nodes.head? = some first ∧ view.field? first = some node ∧
        node.selectionSet = d.selectionSet := by
  cases h with
  | collected mem =>
      obtain ⟨o, os, hocc, he⟩ := Collected.mem_entries_collected_iff.1 mem
      have hview : ∀ o' ∈ o :: os, view.field? o'.node.id = some o'.node := fun o' ho' =>
        hfs (mem_occurrencesAt.1 (hocc ▸ ho')).1
      rw [he]
      refine ⟨fun id hid => ?_, o.node.id, o.node, rfl, hview o List.mem_cons_self, rfl⟩
      obtain ⟨o', ho', rfl⟩ := List.mem_map.1 hid
      exact ⟨o'.node, hview o' ho'⟩
  | @internal id _ eq =>
      obtain ⟨node, field, hn, -, rfl⟩ := internalSelection_eq_ok_iff.1 eq
      refine ⟨fun id' hid' => ?_, id, node, rfl, hn, rfl⟩
      obtain rfl := List.mem_singleton.1 hid'
      exact ⟨node, hn⟩

variable {p : Plan} {fuel : Nat} {task : BuildTask σ} {s s₁ s₂ s₃ s₄ s' : CompileState σ}
  {c : Collected} {deferred : List (DeferredFragment SelectionSet)} {m : SelectionMap}
  {selections : List Selection} {jobs : List ChildJob}

/-- The synthetic syntax only grows until the drafts are revised. -/
theorem Level.grows_revised (hschema : input.schema.WellNamed) (hlawful : input.pipeline.Lawful)
    (h : input.Level p fuel task s s₁ s₂ s₃ s₄ s' c deferred m selections jobs) :
    s.synthetic.Grows s₃.synthetic := by
  obtain ⟨pending, loose, hprepared, -⟩ := h.prepared hschema hlawful
  exact (hprepared.revised₁.grows.trans hprepared.kept₂.synthetic).trans hprepared.revised₃.grows

/-- What the drafts stem from is in view when they are finished, and so are the selection sets
inside. -/
theorem Level.drafts_in_view (hschema : input.schema.Built) (hdocument : input.document.Built)
    (hlawful : input.pipeline.Lawful) {steps : List SyntheticStep}
    (hp : p.view = ⟨input.document.syntaxArena,
      input.document.syntaxArena.syntheticAfter.runSteps steps⟩)
    (hdoc : p.document = input.document)
    (h : input.Level p fuel task s s₁ s₂ s₃ s₄ s' c deferred m selections jobs) :
    ∀ d ∈ m.values,
      (∀ id ∈ d.nodes, ∃ node, (s₃.view input.document).field? id = some node) ∧
      (∃ first node, d.nodes.head? = some first ∧
        (s₃.view input.document).field? first = some node ∧
        node.selectionSet = d.selectionSet) ∧
      ∀ inner, d.selectionSet = some inner →
        ∃ set, (s₃.view input.document).selectionSet? inner = some set := by
  intro d hd
  have hnamed := hschema.wellNamed
  obtain ⟨-, fs, hc, hfound⟩ := h.sound.found hdocument h.prepares.collect
  have hgrows₃ := h.grows_revised hnamed hlawful
  have hstems := hc ▸ stems_optimize h.sound.proper h.prepares.optimize d hd
  obtain ⟨hnodes, first, node, hhead, hn, hsame⟩ :=
    exists_first_of_stems (fun hmem => SyntaxView.field?_grow hgrows₃ (hfound hmem)) hstems
  refine ⟨hnodes, ⟨first, node, hhead, hn, hsame⟩, fun inner hset => ?_⟩
  -- the set is in view of the plan, and its id was taken by then
  obtain ⟨pending, loose, hprepared, -⟩ := h.prepared hnamed hlawful
  have hgrows := h.grows_optimize hnamed hlawful
  have hplan := (SyntaxView.extends_plan hdoc hgrows).field hn
  obtain ⟨set, hset'⟩ :=
    SyntaxView.exists_inner hdocument.closed.arena hp hplan (hsame.trans hset)
  have hlt := (hprepared.fits d hd).bounded inner hset
  rw [Plan.view, hdoc] at hset'
  exact ⟨set, SyntaxView.selectionSet?_of_lt hgrows.extends_ hset' hlt⟩

/-- All ids in what a level leaves resolve in the plan. -/
theorem Level.resolved (hschema : input.schema.Built) (hdocument : input.document.Built)
    (hlawful : input.pipeline.Lawful) {steps : List SyntheticStep}
    (hp : p.view = ⟨input.document.syntaxArena,
      input.document.syntaxArena.syntheticAfter.runSteps steps⟩)
    (hdoc : p.document = input.document)
    (h : input.Level p fuel task s s₁ s₂ s₃ s₄ s' c deferred m selections jobs) :
    SelectionSet.Resolved p.view ⟨task.objectType, selections, deferred⟩ := by
  have hnamed := hschema.wellNamed
  have hextends₃ := SyntaxView.extends_plan hdoc (h.grows_optimize hnamed hlawful)
  have hextends₄ := SyntaxView.extends_plan hdoc (h.grows_finish hnamed hlawful)
  have hdrafts := h.drafts_in_view hschema hdocument hlawful hp hdoc
  have hfollows : (s₃.view input.document).Follows :=
    (h.sound.grows.trans (h.grows_revised hnamed hlawful)).extends_.bases
  have hlists := finish_lists hfollows (fun d hd => (hdrafts d hd).2.2) h.prepares.finish
  refine ⟨fun sel hsel id hid => ?_, fun sel hsel key hkey => ?_, fun e he => ?_⟩
  · obtain ⟨d, hd, hnodes, -⟩ := hlists sel hsel
    obtain ⟨node, hn⟩ := (hdrafts d hd).1 id (hnodes ▸ hid)
    exact ⟨node, hextends₃.field hn⟩
  · obtain ⟨d, hd, hnodes, hkeys⟩ := hlists sel hsel
    obtain ⟨-, ⟨first, node, hhead, hn, hsame⟩, -⟩ := hdrafts d hd
    obtain ⟨inner, set, stored, hset, hinner, hstored, hlisted⟩ := hkeys key hkey
    exact ⟨first, hnodes ▸ hhead, node, inner, set, stored, hextends₃.field hn,
      hsame.trans hset, hextends₄.selectionSet hinner, hextends₄.selectionSet hstored, hlisted⟩
  · obtain ⟨d, hd, -, set, -, rfl, -⟩ := h.deferral hnamed hlawful he
    obtain ⟨fs, hflat, hc⟩ := h.found
    rw [hc] at hd
    have hresolves := hflat.resolves (Collected.mem_deferrals_collected.1 hd)
    exact hresolves.extend (SyntaxView.extends_plan hdoc (h.grows_start hnamed hlawful))

/-- All ids that occur in a compiled plan resolve. -/
theorem resolved_of_compileWithin (hschema : input.schema.Built)
    (hdocument : input.document.Built) (hlawful : input.pipeline.Lawful) {bound : Nat}
    {name : Option String} {memory memory' : σ}
    (h : input.compileWithin bound name memory = (.ok p, memory')) : p.Resolved := by
  have hcompiled := compiled_of_compileWithin hschema hdocument hlawful h
  have hdoc : p.document = input.document := hcompiled.document
  obtain ⟨steps, hp⟩ := exists_runSteps h
  have hparts : ∀ key type set, p.selectionSet key type = .ok set → ∀ part ∈ set.parts,
      part.Resolved p.view := by
    intro key type set hset part hpart
    obtain ⟨n, task, t, u, hremains⟩ :=
      exists_remains hschema hdocument hlawful h hset hpart
    obtain ⟨_, _, _, _, _, _, _, _, _, _, hlevel, rfl⟩ := hremains.level
    exact hlevel.resolved hschema hdocument hlawful hp hdoc
  refine ⟨fun key hkey => ?_, hparts⟩
  rcases (hcompiled.isTree.mem_keys_iff key).1 hkey with rfl | hchild
  -- the root is a selection set of the document
  · obtain ⟨set, hset⟩ := hdocument.closed.operation p.operation
      (Document.operation_mem hcompiled.operation)
    refine ⟨set, ?_⟩
    rw [SyntaxView.selectionSet?, hp, Plan.root, hset]
    rfl
  -- and every other key is that of a selection
  · obtain ⟨above, type, set, part, sel, hset, hpart, hsel, hkey⟩ :=
      Plan.exists_selection_of_childKey hchild
    obtain ⟨_, -, _, _, _, stored, -, -, -, hstored, -⟩ :=
      (hparts above type set hset part hpart).keys sel hsel key hkey
    exact ⟨stored, hstored⟩

/-- **An id never means two nodes, and never changes its meaning**, whatever was done to the
synthetic syntax. A plan is compiled by such steps only, and so every id in it resolves. -/
theorem meaning_of_ids :
    (∀ (a : SyntaxArena) (steps : List SyntheticStep) (v : SyntaxView),
      v = ⟨a, a.syntheticAfter.runSteps steps⟩ →
        v.Disjoint ∧ (∀ next, v.Extends ⟨a, a.syntheticAfter.runSteps (steps ++ next)⟩) ∧
          (∀ source, v.Lowers source) ∧ ∀ node, v.Copies node) ∧
    ∀ {σ : Type} (input : CompileInput σ) (bound : Nat) (name : Option String)
      (memory memory' : σ) (p : Plan), input.schema.Built → input.document.Built →
      input.pipeline.Lawful → input.compileWithin bound name memory = (.ok p, memory') →
        (∃ steps, p.view = ⟨input.document.syntaxArena,
          input.document.syntaxArena.syntheticAfter.runSteps steps⟩) ∧ p.Resolved := by
  refine ⟨ids_keep_meaning, fun input bound name memory memory' p hschema hdocument hlawful h => ?_⟩
  exact ⟨exists_runSteps h, resolved_of_compileWithin hschema hdocument hlawful h⟩

end CompileInput

namespace Linked

/-- Two texts are lowered, of which one is no field, and no id means two nodes; and the plan has
copies of selection sets. -/
theorem meaning_of_ids_linked :
    SyntaxView.Disjoint ⟨document.syntaxArena,
      document.syntaxArena.syntheticAfter.runSteps [.lower "next", .lower "next next"]⟩ ∧
    ∃ p memory, input.compileWithin 10 none [] = (.ok p, memory) ∧
      0 < p.synthetic.selectionSets.size ∧ p.Resolved := by
  obtain ⟨p, memory, h, hcopies⟩ := exists_eq_ok_and (x := input.compileWithin 10 none [])
    (t := fun p : Plan => decide (0 < p.synthetic.selectionSets.size)) (by decide +kernel)
  obtain ⟨hmeaning, hresolved⟩ := CompileInput.meaning_of_ids
  obtain ⟨hdisjoint, -⟩ := hmeaning document.syntaxArena [.lower "next", .lower "next next"] _ rfl
  obtain ⟨-, hplan⟩ :=
    hresolved input 10 none [] memory p schema_built document_built pipeline_lawful h
  exact ⟨hdisjoint, p, memory, h, of_decide_eq_true hcopies, hplan⟩

end Linked

namespace Grafted

/-- The node of a graft is one of another document, and need not resolve in the plan it is put
into. -/
theorem graft_unresolved : input.schema.Built ∧ input.document.Built ∧ ∃ p memory,
    input.compile none () = (.ok p, memory) ∧
      (∃ key below sel, p.selectionSet key "User" = .ok below ∧ sel ∈ below.selections ∧
        ∃ id ∈ sel.nodes, p.view.field? id = none) ∧ ¬ p.Resolved := by
  obtain ⟨p, memory, h, htest⟩ := exists_eq_ok_and (x := input.compile none ())
    (t := fun p : Plan => (p.selectionBelow? "me" "User" "x").any fun sel =>
      sel.nodes.any fun id => (p.view.field? id).isNone) (by decide +kernel)
  obtain ⟨sel, hsel, hnodes⟩ := (Option.any_eq_true _ _).1 htest
  obtain ⟨id, hid, hnone⟩ := List.any_eq_true.1 hnodes
  rw [Option.isNone_iff_eq_none] at hnone
  obtain ⟨key, below, hbelow, hmem⟩ := Plan.exists_of_selectionBelow? hsel
  refine ⟨schema_built, stockDocument_built, p, memory, h,
    ⟨key, below, sel, hbelow, hmem, id, hid, hnone⟩, fun hresolved => ?_⟩
  have hpart := hresolved.parts key "User" below hbelow below below.mem_parts_self
  obtain ⟨node, hn⟩ := hpart.nodes sel hmem id hid
  rw [hnone] at hn
  cases hn

end Grafted

end QueryPlan
