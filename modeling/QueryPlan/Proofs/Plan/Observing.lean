import QueryPlan.Proofs.Plan.Terminates
import QueryPlan.Proofs.Together

/-!
# Optimizers that only observe

An optimizer observes if it never refuses a deferral and leaves all drafts as they are. It may read
what it is shown, lower syntax that nothing uses, and remember what it likes. A walk through some
selection sets of a document comes to the same result whichever observers are asked on the way, and
whatever has been put into the synthetic syntax before.
-/

set_option autoImplicit false

namespace QueryPlan

variable {σ τ : Type}

/-! ## Observing -/

/-- The optimizer allows every fragment to be deferred. -/
structure Optimizer.AllowsDeferral (o : Optimizer σ) : Prop where
  spread : ∀ context node fragment m, ((o.allowsSpread context node fragment).run m).1 = true
  inlineFragment : ∀ context node m, ((o.allowsInlineFragment context node).run m).1 = true

/-- The optimizer refuses no deferral and changes no draft. -/
structure Optimizer.Observes (o : Optimizer σ) : Prop where
  allows : o.AllowsDeferral
  keeps : o.Keeps

/-- All registered optimizers only observe. -/
structure Pipeline.Observes (p : Pipeline σ) : Prop where
  general : ∀ o ∈ p.general, o.Observes
  byField : ∀ o ∈ p.byField, o.optimizer.Observes

namespace Pipeline

variable {p : Pipeline σ}

theorem observes_empty : (empty : Pipeline σ).Observes where
  general _ h := absurd h List.not_mem_nil
  byField _ h := absurd h List.not_mem_nil

theorem Observes.below (h : p.Observes) (t : ObjectType) (field : String) :
    ∀ o ∈ p.below t field, o.Observes :=
  forall_mem_below h.byField t field

theorem Observes.withOptimizer (h : p.Observes) {o : Optimizer σ} (ho : o.Observes) :
    (p.withOptimizer o).Observes where
  general := forall_mem_withOptimizer h.general ho
  byField := h.byField

theorem Observes.withFieldOptimizer (h : p.Observes) {o : Optimizer σ} (ho : o.Observes)
    (type field : String) : (p.withFieldOptimizer type field o).Observes where
  general := h.general
  byField := List.forall_mem_append.2 ⟨h.byField, List.forall_mem_singleton.2 ho⟩

end Pipeline

/-! ## Rules that only observe -/

/-- The source text of a field can be lowered into any arena. -/
theorem SyntaxArena.exists_lowerFieldSource {source : String}
    (h : (fieldOfSource source).isOk = true) (a : SyntaxArena) :
    ∃ id b, a.lowerFieldSource source = (.ok id, b) := by
  unfold lowerFieldSource
  cases hfield : fieldOfSource source with
  | error fault =>
      rw [hfield] at h
      cases h
  | ok selection =>
      -- only a field stands for itself
      have hform : ∃ head p items, selection = .field head p items := by
        unfold fieldOfSource at hfield
        split at hfield
        · cases hfield
        · split at hfield
          · cases hfield
            exact ⟨_, _, _, rfl⟩
          · cases hfield
        · cases hfield
      obtain ⟨head, p, items, rfl⟩ := hform
      dsimp only
      rw [lowerSelection]
      by_cases hempty : items.isEmpty
      · rw [if_pos hempty]
        exact ⟨_, _, rfl⟩
      · rw [if_neg hempty]
        exact ⟨_, _, rfl⟩

/-- The action writes down what it is shown, or lowers the source text of a field. -/
def RuleAction.Observes : RuleAction → Prop
  | .nothing | .record _ => True
  | .lower source => (fieldOfSource source).isOk = true
  | .edit _ | .insert _ _ _ | .veto _ _ => False

namespace Rule

theorem vetoes_eq_false {r : Rule} (h : r.action.Observes) (c : PlanContext) (form : FragmentForm)
    (name : Option String) : r.vetoes c form name = false := by
  unfold vetoes
  cases haction : r.action with
  | veto only fragment =>
      rw [haction] at h
      exact h.elim
  | _ => rfl

/-- A rule with such an action only observes. -/
theorem observes_optimizer {r : Rule} (h : r.action.Observes) : r.optimizer.Observes where
  allows := by
    refine ⟨fun context node fragment m => ?_, fun context node m => ?_⟩
    · show (!r.vetoes context .spread (some fragment.name)) = true
      rw [vetoes_eq_false h]
      rfl
    · show (!r.vetoes context .inlineFragment node.typeCondition) = true
      rw [vetoes_eq_false h]
      rfl
  keeps := by
    intro context document synthetic m journal
    simp only [optimizer]
    split
    · unfold reviseInRange
      cases haction : r.action with
      | nothing => exact ⟨journal, synthetic, rfl⟩
      | record recorder => exact ⟨_, synthetic, rfl⟩
      | lower source =>
          rw [haction] at h
          obtain ⟨id, synthetic', hlower⟩ := synthetic.exists_lowerFieldSource h
          refine ⟨journal, synthetic', ?_⟩
          rw [Conversation.run, hlower]
          rfl
      | edit e =>
          rw [haction] at h
          exact h.elim
      | insert field key absent =>
          rw [haction] at h
          exact h.elim
      | veto only fragment =>
          rw [haction] at h
          exact h.elim
    · exact ⟨journal, synthetic, rfl⟩

end Rule

/-! ## Walks that observers are asked on -/

/-- What is entered in a selection of the document is in the document. -/
theorem Document.Enters.has {d : Document} {fragments : FragmentIndex} {sel : SelectionNode}
    {set : SelectionSetId} (h : d.Enters fragments sel set) (hd : d.Closed)
    (hfragments : fragments.Within d) : d.Has set := by
  cases h with
  | inlineFragment hn => exact hd.has_of_inlineFragment hn
  | spread _ hf => exact hfragments hf

/-- Under the id both views list the same selections, those of the document. -/
structure SyntaxView.Shares (d : Document) (v w : SyntaxView) (set : SelectionSetId) : Prop where
  eq : w.selectionsOf set = v.selectionsOf set
  resolves : ∀ sel ∈ v.selectionsOf set, d.syntaxArena.Resolves sel

/-- Every two views share the selection sets of the document. -/
theorem Document.Has.shares {d : Document} {v w : SyntaxView} {set : SelectionSetId}
    (h : d.Has set) (hd : d.Closed) (hv : v.document = d.syntaxArena)
    (hw : w.document = d.syntaxArena) : v.Shares d w set :=
  ⟨h.selectionsOf_eq hw hv, hd.resolves_selectionsOf hv h⟩

/-- What is entered from a set in view ranks below the number of all sets in view. -/
theorem SyntaxView.rank_lt {d : Document} {fragments : FragmentIndex} {rank : SelectionSetId → Nat}
    (hranks : d.Ranks fragments rank)
    (hle : ∀ set, rank set ≤ d.syntaxArena.selectionSets.size) {v : SyntaxView}
    (hv : v.document = d.syntaxArena) {set inner : SelectionSetId} {sel : SelectionNode}
    (hsel : sel ∈ v.selectionsOf set) (henters : d.Enters fragments sel inner) :
    rank inner < v.document.selectionSets.size + v.synthetic.selectionSets.size := by
  rw [hv]
  have hinner := hle inner
  cases hd : v.document.selectionSet? set with
  | some node =>
      rw [selectionsOf_of_document hd] at hsel
      have hrank : rank inner < rank set := hranks (hv ▸ hd) hsel henters
      have hset := hle set
      omega
  | none =>
      -- a set that is not of the document is a synthetic one
      have hpos : 0 < v.synthetic.selectionSets.size := by
        rw [Nat.pos_iff_ne_zero]
        intro hzero
        have hnone : v.synthetic.selectionSet? set = none := by
          simp [SyntaxArena.selectionSet?, SyntaxArena.atIndex?, Array.size_eq_zero_iff.1 hzero]
        rw [selectionsOf, selectionSet?, hd, hnone] at hsel
        exact absurd hsel List.not_mem_nil
      omega

namespace CollectScope

theorem allAllow_of_allows {ask : Optimizer σ → StateM σ Bool} {os : List (Optimizer σ)}
    (hallows : ∀ o ∈ os, ∀ m, ((ask o).run m).1 = true) (m : σ) :
    ((allAllow ask os).run m).1 = true := by
  induction os generalizing m with
  | nil => rfl
  | cons o os ih =>
      rw [List.forall_mem_cons] at hallows
      have hone := hallows.1 m
      show (((ask o >>= fun b => if b then allAllow ask os else pure false) : StateM σ Bool).run
        m).1 = true
      rw [StateT.run_bind]
      rcases hrun : (ask o).run m with ⟨b, m'⟩
      rw [hrun] at hone
      obtain rfl : b = true := hone
      exact ih hallows.2 m'

/-- Two walks with the same surroundings through the same document, which may set aside whatever
can be deferred. -/
structure Twins (d : Document) (s : CollectScope σ) (s' : CollectScope τ) : Prop where
  context : s'.context = s.context
  fragments : s'.fragments = s.fragments
  view : s.view.document = d.syntaxArena
  view' : s'.view.document = d.syntaxArena
  allows : ∀ o ∈ s.optimizers, o.AllowsDeferral
  allows' : ∀ o ∈ s'.optimizers, o.AllowsDeferral

variable {d : Document} {s : CollectScope σ} {s' : CollectScope τ} {enter : Enter σ}
  {enter' : Enter τ} {clause : Option Clause} {acc : Collected}

theorem sameResult_meets (h : s'.context = s.context) (c : String) (location : SyntaxLocation) :
    SameResult (liftM (s.meets c location) : CollectM σ Bool)
      (liftM (s'.meets c location) : CollectM τ Bool) := by
  unfold meets
  rw [h]
  split
  · exact sameResult_throw _
  · exact sameResult_pure _

/-- What is asked of all optimizers is answered in the same way, if all of them allow it. -/
theorem sameResult_allAllow {ask : Optimizer σ → StateM σ Bool} {ask' : Optimizer τ → StateM τ Bool}
    {os : List (Optimizer σ)} {os' : List (Optimizer τ)}
    (h : ∀ o ∈ os, ∀ m, ((ask o).run m).1 = true)
    (h' : ∀ o ∈ os', ∀ m, ((ask' o).run m).1 = true) :
    SameResult (liftM (allAllow ask os) : CollectM σ Bool)
      (liftM (allAllow ask' os') : CollectM τ Bool) := by
  intro m m'
  refine together_of_runs (runs_lift.2 rfl) (runs_lift.2 rfl) ?_
  exact (allAllow_of_allows h' m').trans (allAllow_of_allows h m).symm

theorem sameResult_enterFragment {ds : List DirectiveNode} {source : DeferredSource}
    {set : SelectionSetId} {typeCondition : Option String} {ask : Optimizer σ → StateM σ Bool}
    {ask' : Optimizer τ → StateM τ Bool} (hask : ∀ o ∈ s.optimizers, ∀ m, ((ask o).run m).1 = true)
    (hask' : ∀ o ∈ s'.optimizers, ∀ m, ((ask' o).run m).1 = true)
    (henter : SameResult (enter set (reachedUnder clause ds) acc)
      (enter' set (reachedUnder clause ds) acc)) :
    SameResult (s.enterFragment enter clause ds source set typeCondition ask acc)
      (s'.enterFragment enter' clause ds source set typeCondition ask' acc) := by
  dsimp only [enterFragment]
  split
  · refine (sameResult_allAllow hask hask').bind fun b => ?_
    cases b with
    | true => exact sameResult_pure _
    | false => exact henter
  · exact henter

/-- One selection of the document gives the same result if the fragment that it enters does. -/
theorem sameResult_collectSelection (h : s.Twins d s') {sel : SelectionNode}
    (hsel : d.syntaxArena.Resolves sel)
    (henter : ∀ set, d.Enters s.fragments sel set → ∀ clause acc,
      SameResult (enter set clause acc) (enter' set clause acc)) :
    SameResult (s.collectSelection enter clause acc sel)
      (s'.collectSelection enter' clause acc sel) := by
  cases sel with
  | field id =>
      obtain ⟨node, hn⟩ := hsel
      dsimp only [collectSelection]
      rw [SyntaxView.field?_of_document (h.view.symm ▸ hn),
        SyntaxView.field?_of_document (h.view'.symm ▸ hn), h.context]
      dsimp only
      split
      · exact sameResult_throw _
      · exact sameResult_pure _
  | inlineFragment id =>
      obtain ⟨node, hn⟩ := hsel
      dsimp only [collectSelection]
      rw [SyntaxView.inlineFragment?_of_document (h.view.symm ▸ hn),
        SyntaxView.inlineFragment?_of_document (h.view'.symm ▸ hn)]
      have hinside (typeCondition : Option String) :
          SameResult (s.enterFragment enter clause node.directives (.inlineFragment id)
              node.selectionSet typeCondition (fun o => o.allowsInlineFragment s.context node) acc)
            (s'.enterFragment enter' clause node.directives (.inlineFragment id)
              node.selectionSet typeCondition
              (fun o => o.allowsInlineFragment s'.context node) acc) :=
        sameResult_enterFragment (fun o ho => (h.allows o ho).inlineFragment s.context node)
          (fun o ho => (h.allows' o ho).inlineFragment s'.context node)
          (henter _ (.inlineFragment hn) _ acc)
      dsimp only
      cases node.typeCondition with
      | none => exact hinside none
      | some c =>
          refine (sameResult_meets h.context c node.location).bind fun applies => ?_
          cases applies with
          | true => exact hinside (some c)
          | false => exact sameResult_pure _
  | spread id =>
      obtain ⟨node, hn⟩ := hsel
      dsimp only [collectSelection]
      rw [SyntaxView.spread?_of_document (h.view.symm ▸ hn),
        SyntaxView.spread?_of_document (h.view'.symm ▸ hn), h.fragments]
      dsimp only
      cases hf : s.fragments.resolve? node.fragmentName with
      | none => exact sameResult_throw _
      | some fragment =>
          refine (sameResult_meets h.context _ _).bind fun applies => ?_
          cases applies with
          | false => exact sameResult_pure _
          | true =>
              exact sameResult_enterFragment
                (fun o ho => (h.allows o ho).spread s.context node fragment)
                (fun o ho => (h.allows' o ho).spread s'.context node fragment)
                (henter _ (.spread hn hf) _ acc)

/-- **Walks through the same set give the same result**, with as much fuel as fragments nest in
it. -/
theorem sameResult_collect {rank : SelectionSetId → Nat} (hd : d.Closed)
    (hfragments : s.fragments.Within d) (hranks : d.Ranks s.fragments rank) (h : s.Twins d s')
    {fuel fuel' : Nat} {set : SelectionSetId} (hset : d.Has set) (hfuel : rank set < fuel)
    (hfuel' : rank set < fuel') :
    SameResult (s.collect fuel set clause acc) (s'.collect fuel' set clause acc) := by
  induction fuel generalizing fuel' set clause acc with
  | zero => exact absurd hfuel (Nat.not_lt_zero _)
  | succ fuel ih =>
      cases fuel' with
      | zero => exact absurd hfuel' (Nat.not_lt_zero _)
      | succ fuel' =>
          obtain ⟨node, hnode⟩ := hset
          rw [collect_succ, collect_succ, SyntaxView.selectionsOf_of_document (h.view.symm ▸ hnode),
            SyntaxView.selectionsOf_of_document (h.view'.symm ▸ hnode)]
          refine sameResult_foldlM (fun sel hsel acc => ?_) acc
          refine sameResult_collectSelection h (hd.arena.resolves hnode hsel)
            fun inner henters clause acc => ?_
          -- a fragment that is entered ranks below the set it stands in
          have hrank : rank inner < rank set := hranks hnode hsel henters
          exact ih (henters.has hd hfragments) (by omega) (by omega)

/-- Walks through sets that both views share give the same result: they have enough fuel, however
much has been put into the synthetic syntax. -/
theorem sameResult_collectAll_of_shares (hd : d.Closed)
    (hfragments : FragmentIndex.build d = .ok s.fragments) (h : s.Twins d s')
    {sources : List ClausedSet} (hsources : ∀ c ∈ sources, s.view.Shares d s'.view c.selectionSet) :
    SameResult (s.collectAll sources) (s'.collectAll sources) := by
  obtain ⟨rank, hranks, hle⟩ := FragmentIndex.exists_ranks hd hfragments
  have hwithin := FragmentIndex.within_of_build hd hfragments
  refine sameResult_foldlM (fun c hc acc => ?_) Collected.empty
  obtain ⟨heq, hresolves⟩ := hsources c hc
  rw [nestingBound, nestingBound, collect_succ, collect_succ, heq]
  refine sameResult_foldlM (fun sel hsel acc => ?_) acc
  refine sameResult_collectSelection h (hresolves sel hsel) fun inner henters clause acc => ?_
  exact sameResult_collect hd hwithin hranks h (henters.has hd hwithin)
    (SyntaxView.rank_lt hranks hle h.view hsel henters)
    (SyntaxView.rank_lt hranks hle h.view' (heq.symm ▸ hsel) henters)

theorem sameResult_collectAll (hd : d.Closed)
    (hfragments : FragmentIndex.build d = .ok s.fragments) (h : s.Twins d s')
    {sources : List ClausedSet} (hsources : ∀ c ∈ sources, d.Has c.selectionSet) :
    SameResult (s.collectAll sources) (s'.collectAll sources) :=
  sameResult_collectAll_of_shares hd hfragments h fun c hc =>
    (hsources c hc).shares hd h.view h.view'

end CollectScope

end QueryPlan
