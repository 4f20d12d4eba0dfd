import QueryPlan.Proofs.Document.Acyclic
import QueryPlan.Proofs.Plan.Place

/-!
# Collecting does not fail

Whether a selection set can be collected is read off the syntax: nothing that a type enters may
name an unknown field, type or fragment (`Setting.Readable`). Collecting does not fail then, since
fragments come to an end before its fuel does. Nothing else can come in between: optimizers only
decide what is set aside.
-/

set_option autoImplicit false

namespace QueryPlan

variable {σ : Type}

/-! ## Selections that can be read -/

/-- Directives leave a clause only if it can still hold. -/
theorem Narrows.satisfiable {clause clause' : Option Clause} (h : Narrows clause clause')
    (hclause : ∀ c ∈ clause, c.Satisfiable) : ∀ c ∈ clause', c.Satisfiable := by
  induction h with
  | refl => exact hclause
  | inside _ ih =>
      refine ih fun c hc => ?_
      obtain ⟨c', hc', hds⟩ := Option.bind_eq_some_iff.1 hc
      exact Clause.satisfiable_andDirectives (hclause c' hc') hds

namespace Setting

/-- Nothing keeps a type from collecting the selections and all fragments it enters. -/
def Readable (g : Setting) (t : ObjectType) (sels : List SelectionNode) : Prop :=
  ∀ clause, ∃ fs, g.Flattens t (fun b => b = false) sels clause fs

variable {g : Setting} {t : ObjectType} {answers : Bool → Prop} {fs : List Found}

/-- Selections can be read if they were flattened, and the fragments set aside can be. -/
theorem Flattens.readable {sels : List SelectionNode} {clause : Option Clause}
    (h : g.Flattens t answers sels clause fs)
    (hdeferred : ∀ d, .deferral d ∈ fs → g.Readable t (g.view.selectionsOf d.selectionSet)) :
    g.Readable t sels := by
  induction h with
  | nil => exact fun _ => ⟨[], .nil⟩
  | field hn hf _ ih =>
      intro clause
      obtain ⟨fs, hfs⟩ := ih (fun d hd => hdeferred d (List.mem_cons_of_mem _ hd)) clause
      exact ⟨_, .field hn hf hfs⟩
  | passed hp _ ih =>
      intro clause
      obtain ⟨fs, hfs⟩ := ih hdeferred clause
      exact ⟨fs, .passed hp hfs⟩
  | @entered sel use _ _ _ _ hopens _ _ _ ih ih' =>
      intro clause
      obtain ⟨fs, hfs⟩ := ih (fun d hd => hdeferred d (List.mem_append_left _ hd))
        (reachedUnder clause use.directives)
      obtain ⟨fs', hfs'⟩ := ih' (fun d hd => hdeferred d (List.mem_append_right _ hd)) clause
      exact ⟨_, .entered hopens (fun _ => rfl) hfs hfs'⟩
  | @deferred sel use _ _ _ _ _ hopens _ _ _ _ ih =>
      intro clause
      -- what was set aside is entered instead
      obtain ⟨fs, hfs⟩ := hdeferred _ List.mem_cons_self (reachedUnder clause use.directives)
      obtain ⟨fs', hfs'⟩ := ih (fun d hd => hdeferred d (List.mem_cons_of_mem _ hd)) clause
      exact ⟨_, .entered hopens (fun _ => rfl) hfs hfs'⟩

/-- What is found under a clause that can hold can be reached by some request. -/
theorem FlattensAll.satisfiable {sources : List ClausedSet}
    (h : g.FlattensAll t answers sources fs) (hsources : ∀ c ∈ sources, c.clause.Satisfiable)
    {node : FieldNode} {f : Field} {c : Clause} (hmem : .field node f (some c) ∈ fs) :
    c.Satisfiable := by
  obtain ⟨source, hsource, horigin⟩ := h.origin hmem
  have hclause : ∀ c ∈ some source.clause, c.Satisfiable := fun c hc =>
    Option.some.inj hc ▸ hsources source hsource
  cases horigin with
  | field _ _ hnarrows => exact hnarrows.satisfiable hclause c rfl

end Setting

/-! ## Collecting does not fail -/

/-- A fragment of the document that is opened is entered. -/
theorem Setting.Opens.enters {schema : Schema} {fragments : FragmentIndex} {d : Document}
    {v : SyntaxView} {t : ObjectType} {sel : SelectionNode} {use : FragmentUse}
    (h : Opens ⟨schema, fragments, v⟩ t sel use) (hv : v.document = d.syntaxArena)
    (hsel : d.syntaxArena.Resolves sel) : d.Enters fragments sel use.selectionSet := by
  cases h with
  | inlineFragment hn _ =>
      exact .inlineFragment (SyntaxView.inlineFragment?_of_resolves hsel hv hn)
  | spread hn hf _ => exact .spread (SyntaxView.spread?_of_resolves hsel hv hn) hf

theorem Schema.exists_type_of_isPossibleType {s : Schema} {name object : String}
    (h : s.isPossibleType name object = true) : ∃ type, s.type? name = some type := by
  unfold isPossibleType at h
  cases htype : s.type? name with
  | none =>
      rw [htype] at h
      cases h
  | some type => exact ⟨type, rfl⟩

namespace CollectScope

variable {s : CollectScope σ} {enter : Enter σ} {clause : Option Clause} {sel : SelectionNode}

/-- A type condition that is defined can be read. -/
theorem runs_meets_of_type {c : String} {type : GraphQLType} {b : Bool}
    (h : s.context.schema.type? c = some type)
    (hb : s.context.schema.isPossibleType c s.context.objectType.name = b)
    (location : SyntaxLocation) (m : σ) :
    Runs (liftM (s.meets c location) : CollectM σ Bool) m b m := by
  unfold meets
  rw [h, ← hb]
  rfl

theorem runs_of_passes (h : s.setting.Passes s.context.objectType sel) (acc : Collected) (m : σ) :
    Runs (s.collectSelection enter clause acc sel) m acc m := by
  have hskip : Runs (pure acc : CollectM σ Collected) m acc m := runs_pure.2 ⟨rfl, rfl⟩
  cases h with
  | @inlineFragment id node c hn hc hdefined hnot =>
      obtain ⟨type, htype⟩ := hdefined
      dsimp only [collectSelection]
      rw [show s.view.inlineFragment? id = some node from hn]
      dsimp only
      rw [hc]
      exact runs_bind.2 ⟨false, m, runs_meets_of_type htype hnot node.location m, hskip⟩
  | @spread id node fragment hn hf hdefined hnot =>
      obtain ⟨type, htype⟩ := hdefined
      dsimp only [collectSelection]
      rw [show s.view.spread? id = some node from hn]
      dsimp only
      rw [show s.fragments.resolve? node.fragmentName = some fragment from hf]
      exact runs_bind.2 ⟨false, m, runs_meets_of_type htype hnot fragment.location m, hskip⟩
  | noField hn =>
      dsimp only [collectSelection]
      rwa [show s.view.field? _ = none from hn]
  | noInlineFragment hn =>
      dsimp only [collectSelection]
      rwa [show s.view.inlineFragment? _ = none from hn]
  | noSpread hn =>
      dsimp only [collectSelection]
      rwa [show s.view.spread? _ = none from hn]

theorem succeeds_lift {x : StateM σ Bool} : Succeeds (liftM x : CollectM σ Bool) :=
  fun m => ⟨(x.run m).1, (x.run m).2, runs_lift.2 rfl⟩

/-- A fragment is set aside or entered. -/
theorem succeeds_enterFragment {ds : List DirectiveNode} {source : DeferredSource}
    {set : SelectionSetId} {typeCondition : Option String} {ask : Optimizer σ → StateM σ Bool}
    {acc : Collected} (henter : Succeeds (enter set (reachedUnder clause ds) acc)) :
    Succeeds (s.enterFragment enter clause ds source set typeCondition ask acc) := by
  dsimp only [enterFragment]
  split
  · refine succeeds_bind succeeds_lift fun _ b _ _ => ?_
    cases b with
    | true => exact succeeds_pure _
    | false => exact henter
  · exact henter

/-- A step that is taken if a type condition is met, where it is. -/
theorem succeeds_of_met {x : CollectM σ Bool} (hx : ∀ m, Runs x m true m)
    {y z : CollectM σ Collected} (hy : Succeeds y) :
    Succeeds (x >>= fun met => if met then y else z) := by
  refine succeeds_bind (fun m => ⟨true, m, hx m⟩) fun m b m' hb => ?_
  obtain ⟨rfl, -⟩ := hb.unique (hx m)
  exact hy

/-- A selection that opens a fragment can be collected if the fragment can be entered. -/
theorem succeeds_of_opens {use : FragmentUse} (h : s.setting.Opens s.context.objectType sel use)
    {acc : Collected}
    (henter : Succeeds (enter use.selectionSet (reachedUnder clause use.directives) acc)) :
    Succeeds (s.collectSelection enter clause acc sel) := by
  cases h with
  | @inlineFragment id node hn hmeets =>
      dsimp only [collectSelection]
      rw [show s.view.inlineFragment? id = some node from hn]
      dsimp only
      cases hc : node.typeCondition with
      | none =>
          exact succeeds_of_met (fun m => runs_pure.2 ⟨rfl, rfl⟩) (succeeds_enterFragment henter)
      | some c =>
          have hpossible := hmeets c hc
          obtain ⟨type, htype⟩ := Schema.exists_type_of_isPossibleType hpossible
          exact succeeds_of_met (runs_meets_of_type htype hpossible node.location)
            (succeeds_enterFragment henter)
  | @spread id node fragment hn hf hpossible =>
      obtain ⟨type, htype⟩ := Schema.exists_type_of_isPossibleType hpossible
      dsimp only [collectSelection]
      rw [show s.view.spread? id = some node from hn]
      dsimp only
      rw [show s.fragments.resolve? node.fragmentName = some fragment from hf]
      exact succeeds_of_met (runs_meets_of_type htype hpossible fragment.location)
        (succeeds_enterFragment henter)

/-- **Collecting a selection set does not fail** if it can be read, and if there is fuel for as
many fragments as nest in it. -/
theorem succeeds_collect {d : Document} {rank : SelectionSetId → Nat} (hd : d.Closed)
    (hview : s.view.document = d.syntaxArena) (hranks : d.Ranks s.fragments rank)
    (hfragments : s.fragments.Within d) {fuel : Nat} {set : SelectionSetId} (hset : d.Has set)
    (hfuel : rank set < fuel) {fs : List Found}
    (h : s.setting.Flattens s.context.objectType (fun b => b = false) (s.view.selectionsOf set)
      clause fs) (acc : Collected) : Succeeds (s.collect fuel set clause acc) := by
  induction fuel generalizing set clause fs acc with
  | zero => exact absurd hfuel (Nat.not_lt_zero _)
  | succ fuel ih =>
      obtain ⟨node, hnode⟩ := hset
      rw [SyntaxView.selectionsOf_of_document (hview ▸ hnode)] at h
      rw [collect_succ, SyntaxView.selectionsOf_of_document (hview ▸ hnode)]
      -- the selections one after another; a fragment has a lower rank than the set it stands in
      have hloop : ∀ {sels fs}, (∀ sel ∈ sels, sel ∈ node.selections) →
          s.setting.Flattens s.context.objectType (fun b => b = false) sels clause fs →
          ∀ acc, Succeeds (sels.foldlM (s.collectSelection (s.collect fuel) clause) acc) := by
        intro sels fs hsels h
        induction sels generalizing fs with
        | nil => exact fun acc => succeeds_pure acc
        | cons sel sels ihsels =>
            rw [List.forall_mem_cons] at hsels
            intro acc
            rw [List.foldlM_cons]
            cases h with
            | @field id n f _ _ fs hn hf hrest =>
                refine succeeds_bind ?_ fun _ acc' _ _ => ihsels hsels.2 hrest acc'
                dsimp only [collectSelection]
                rw [show s.view.field? id = some n from hn]
                dsimp only
                rw [hf]
                exact succeeds_pure _
            | passed hp hrest =>
                exact succeeds_bind (fun m => ⟨acc, m, runs_of_passes hp acc m⟩)
                  fun _ acc' _ _ => ihsels hsels.2 hrest acc'
            | @entered _ use _ _ fs fs' hopens _ hinner hrest =>
                have hresolves := hd.arena.resolves hnode hsels.1
                obtain ⟨-, hhas⟩ := hopens.transfer hd hfragments hview hview hresolves
                have hlt : rank use.selectionSet < rank set :=
                  hranks hnode hsels.1 (hopens.enters hview hresolves)
                refine succeeds_bind (succeeds_of_opens hopens ?_)
                  fun _ acc' _ _ => ihsels hsels.2 hrest acc'
                exact ih hhas (by omega) hinner acc
            | deferred _ _ _ hasked _ => cases hasked
      exact hloop (fun _ => id) h acc

/-! Optimizers that refuse. -/

theorem allAllow_of_refuses {ask : Optimizer σ → StateM σ Bool} {o : Optimizer σ}
    (hrefuses : ∀ m, ((ask o).run m).1 = false) {os : List (Optimizer σ)} (ho : o ∈ os) (m : σ) :
    ((allAllow ask os).run m).1 = false := by
  induction os generalizing m with
  | nil => exact absurd ho List.not_mem_nil
  | cons o' os ih =>
      show (((ask o' >>= fun b => if b then allAllow ask os else pure false) : StateM σ Bool).run
        m).1 = false
      rw [StateT.run_bind]
      rcases hrun : (ask o').run m with ⟨b, m'⟩
      cases b with
      | false => rfl
      | true =>
          -- this optimizer has allowed it, so it is not the one that refuses
          rcases List.mem_cons.1 ho with rfl | ho
          · have hfalse := hrefuses m
            rw [hrun] at hfalse
            cases hfalse
          · exact ih ho m'

end CollectScope

/-- The optimizer never allows a fragment to be deferred. -/
structure Optimizer.RefusesDeferral (o : Optimizer σ) : Prop where
  spread : ∀ context node fragment m, ((o.allowsSpread context node fragment).run m).1 = false
  inlineFragment : ∀ context node m, ((o.allowsInlineFragment context node).run m).1 = false

/-- One optimizer that refuses is enough. -/
theorem Optimizer.RefusesDeferral.answers {o : Optimizer σ} (h : o.RefusesDeferral)
    {s : CollectScope σ} (ho : o ∈ s.optimizers) : s.Answers fun b => b = false where
  spread node fragment m := CollectScope.allAllow_of_refuses (h.spread s.context node fragment) ho m
  inlineFragment node m := CollectScope.allAllow_of_refuses (h.inlineFragment s.context node) ho m

end QueryPlan
