import QueryPlan.Plan.Compile
import QueryPlan.Plan.Rule
import QueryPlan.Proofs.Document.Arena
import QueryPlan.Proofs.Run

/-!
# Lawful optimizers

An optimizer is lawful if all it does to the drafts of a selection set is to keep, drop, reorder
or copy them, and to put in internal selections. Whatever holds of the drafts it is handed and of
internal selections then holds of the drafts it leaves: each draft still fits the type it is for
(`SelectionDraft.Fits`), and the synthetic syntax has only grown.

Not every optimizer is lawful. One that compiles an operation of its own can put a selection of that
plan into another one (`Optimizer.grafting`), and the check of the keys lets it pass.
-/

set_option autoImplicit false

namespace QueryPlan

variable {σ : Type}

/-! ## Lawfulness -/

/-- Whatever it is answered, the conversation leaves only drafts that are allowed, or internal
selections of the place it is about. -/
def Conversation.Lawful (context : PlanContext) : (allowed : SelectionDraft → Prop) →
    Conversation (Except CompileError SelectionMap × σ) → Prop
  | allowed, .done (.ok m, _) => ∀ d ∈ m.values, allowed d
  | _, .done (.error _, _) => True
  | allowed, .lower _ next => ∀ answer view,
    (next answer view).Lawful context
      fun d => allowed d ∨ ∃ id, internalSelection context view id = .ok d

/-- The optimizer leaves only drafts that it was handed and internal selections. -/
def Optimizer.Lawful (o : Optimizer σ) : Prop :=
  ∀ context view m memory, (o.revise context view m memory).Lawful context
    fun d => d ∈ m.values ∨ ∃ id, internalSelection context view id = .ok d

/-- All registered optimizers are lawful. -/
structure Pipeline.Lawful (p : Pipeline σ) : Prop where
  general : ∀ o ∈ p.general, o.Lawful
  byField : ∀ o ∈ p.byField, o.optimizer.Lawful

/-- What holds of all that are registered below fields holds of those below one field. -/
theorem Pipeline.forall_mem_below {p : Pipeline σ} {P : Optimizer σ → Prop}
    (h : ∀ o ∈ p.byField, P o.optimizer) (t : ObjectType) (field : String) :
    ∀ o ∈ p.below t field, P o := by
  intro o ho
  obtain ⟨e, he, rfl⟩ := List.mem_map.1 ho
  exact h e (List.mem_of_mem_filter he)

theorem Pipeline.forall_mem_withOptimizer {p : Pipeline σ} {o : Optimizer σ}
    {P : Optimizer σ → Prop} (h : ∀ o ∈ p.general, P o) (ho : P o) :
    ∀ o' ∈ (p.withOptimizer o).general, P o' :=
  List.forall_mem_append.2 ⟨h, List.forall_mem_singleton.2 ho⟩

theorem Pipeline.Lawful.below {p : Pipeline σ} (h : p.Lawful) (t : ObjectType) (field : String) :
    ∀ o ∈ p.below t field, o.Lawful :=
  forall_mem_below h.byField t field

/-- The optimizer revises nothing, though it may remember what it has seen. -/
def Optimizer.Passive (o : Optimizer σ) : Prop :=
  ∀ context view m memory, ∃ memory', o.revise context view m memory = .done (.ok m, memory')

/-- All registered optimizers are passive. -/
structure Pipeline.Passive (p : Pipeline σ) : Prop where
  general : ∀ o ∈ p.general, o.Passive
  byField : ∀ o ∈ p.byField, o.optimizer.Passive

/-- Whatever the optimizer lowers and remembers, it leaves the drafts as they were. -/
def Optimizer.Keeps (o : Optimizer σ) : Prop :=
  ∀ context document synthetic m memory, ∃ memory' synthetic',
    (o.revise context ⟨document, synthetic⟩ m memory).run document synthetic =
      ((.ok m, memory'), synthetic')

theorem Optimizer.Passive.keeps {o : Optimizer σ} (h : o.Passive) : o.Keeps := by
  intro context document synthetic m memory
  obtain ⟨memory', hrevise⟩ := h context ⟨document, synthetic⟩ m memory
  rw [hrevise]
  exact ⟨memory', synthetic, rfl⟩

theorem Optimizer.Passive.lawful {o : Optimizer σ} (h : o.Passive) : o.Lawful := by
  intro context view m memory
  obtain ⟨memory', hrevise⟩ := h context view m memory
  rw [hrevise]
  exact fun d hd => Or.inl hd

theorem Pipeline.Passive.lawful {p : Pipeline σ} (h : p.Passive) : p.Lawful where
  general o ho := (h.general o ho).lawful
  byField o ho := (h.byField o ho).lawful

theorem Pipeline.Passive.below {p : Pipeline σ} (h : p.Passive) (t : ObjectType)
    (field : String) : ∀ o ∈ p.below t field, o.Passive :=
  forall_mem_below h.byField t field

theorem Pipeline.passive_empty : (Pipeline.empty : Pipeline σ).Passive where
  general _ h := absurd h List.not_mem_nil
  byField _ h := absurd h List.not_mem_nil

theorem Pipeline.mem_general_withOptimizer {p : Pipeline σ} {o o' : Optimizer σ} :
    o' ∈ (p.withOptimizer o).general ↔ o' ∈ p.general ∨ o' = o := by
  rw [withOptimizer, List.mem_append, List.mem_singleton]

theorem Pipeline.Lawful.withOptimizer {p : Pipeline σ} (h : p.Lawful) {o : Optimizer σ}
    (ho : o.Lawful) : (p.withOptimizer o).Lawful where
  general := forall_mem_withOptimizer h.general ho
  byField := h.byField

theorem Pipeline.Passive.withOptimizer {p : Pipeline σ} (h : p.Passive) {o : Optimizer σ}
    (ho : o.Passive) : (p.withOptimizer o).Passive where
  general := forall_mem_withOptimizer h.general ho
  byField := h.byField

/-! ## What lawful optimizers keep -/

/-- The sub-selections of all fields in view are below the next synthetic selection set. -/
structure SyntaxView.Bounded (v : SyntaxView) : Prop where
  document : v.document.Bounded
  synthetic : v.synthetic.Bounded
  follows : v.document.nextSelectionSetId.index ≤ v.synthetic.nextSelectionSetId.index

theorem SyntaxView.Bounded.field {v : SyntaxView} (h : v.Bounded) {id : FieldId}
    {node : FieldNode} {set : SelectionSetId} (hn : v.field? id = some node)
    (hs : node.selectionSet = some set) :
    set.index < v.synthetic.nextSelectionSetId.index := by
  rw [SyntaxView.field?, Option.orElse_eq_orElse, Option.orElse_eq_or] at hn
  rcases Option.or_eq_some_iff.1 hn with hd | ⟨-, hsyn⟩
  · exact (h.document hd hs).trans_le h.follows
  · exact h.synthetic hsyn hs

theorem SyntaxView.Bounded.grow {document a b : SyntaxArena}
    (h : SyntaxView.Bounded ⟨document, a⟩) (hab : a.Grows b) :
    SyntaxView.Bounded ⟨document, b⟩ where
  document := h.document
  synthetic := hab.bounded h.synthetic
  follows := h.follows.trans hab.extends_.sets

/-- The draft is for a field of the type, and its sub-selections are below the next selection
set of the arena. -/
structure SelectionDraft.Fits (t : ObjectType) (a : SyntaxArena) (d : SelectionDraft) : Prop where
  declaringType : d.declaringType = t
  field : t.field? d.field.name = some d.field
  bounded : ∀ set, d.selectionSet = some set → set.index < a.nextSelectionSetId.index

theorem SelectionDraft.Fits.grow {t : ObjectType} {a b : SyntaxArena} {d : SelectionDraft}
    (h : d.Fits t a) (hab : a.Grows b) : d.Fits t b where
  declaringType := h.declaringType
  field := h.field
  bounded set hset := (h.bounded set hset).trans_le hab.extends_.sets

/-- The fields of the type stand under their names. -/
def ObjectType.Named (t : ObjectType) : Prop :=
  ∀ ⦃name field⦄, t.field? name = some field → field.name = name

theorem fits_internalSelection {context : PlanContext} {document a : SyntaxArena} {id : FieldId}
    {d : SelectionDraft} (hview : SyntaxView.Bounded ⟨document, a⟩)
    (hnamed : context.objectType.Named)
    (h : internalSelection context ⟨document, a⟩ id = .ok d) :
    d.Fits context.objectType a := by
  unfold internalSelection at h
  split at h
  · cases h
  · rename_i node hn
    split at h
    · cases h
    · rename_i field hf
      cases h
      exact ⟨rfl, (hnamed hf).symm ▸ hf, fun set hs => hview.field hn hs⟩

theorem SyntaxArena.grows_lowerFieldSource (a : SyntaxArena) (source : String) :
    a.Grows (a.lowerFieldSource source).2 := by
  unfold lowerFieldSource
  cases fieldOfSource source with
  | error fault => exact Grows.refl a
  | ok selection =>
      have h := grows_lowerSelection a selection
      rcases hs : a.lowerSelection selection with ⟨node, b⟩
      rw [hs] at h
      dsimp only
      rw [hs]
      cases node with
      | field id => exact h
      | spread id => exact Grows.refl a
      | inlineFragment id => exact Grows.refl a

namespace Conversation

/-- A conversation only adds to the synthetic syntax. -/
theorem grows_run {α : Type} (c : Conversation α) (document a : SyntaxArena) :
    a.Grows (c.run document a).2 := by
  induction c generalizing a with
  | done result => exact SyntaxArena.Grows.refl a
  | lower source next ih => exact (a.grows_lowerFieldSource source).trans (ih _ _ _)

/-- What holds of all allowed drafts and of internal selections, and goes on to hold as the
synthetic syntax grows, holds of the drafts that a lawful conversation leaves. -/
theorem Lawful.leaves {context : PlanContext} {allowed : SelectionDraft → Prop}
    {c : Conversation (Except CompileError SelectionMap × σ)} {document a b : SyntaxArena}
    {m : SelectionMap} {memory : σ} {P : SyntaxArena → SelectionDraft → Prop}
    (h : c.Lawful context allowed) (hgrow : ∀ {a b d}, a.Grows b → P a d → P b d)
    (hinternal : ∀ {b id d}, a.Grows b →
      internalSelection context ⟨document, b⟩ id = .ok d → P b d)
    (hallowed : ∀ d, allowed d → P a d) (hrun : c.run document a = ((.ok m, memory), b)) :
    ∀ d ∈ m.values, P b d := by
  induction c generalizing allowed a with
  | done result =>
      cases hrun
      exact fun d hd => hallowed d (h d hd)
  | lower source next ih =>
      have hgrows := a.grows_lowerFieldSource source
      refine ih _ _ (h (a.lowerFieldSource source).1 ⟨document, (a.lowerFieldSource source).2⟩)
        (fun hb hid => hinternal (hgrows.trans hb) hid) (fun d hd => ?_) hrun
      rcases hd with hd | ⟨id, hid⟩
      · exact hgrow hgrows (hallowed d hd)
      · exact hinternal hgrows hid

end Conversation

/-- Revising selection sets changes nothing of the state but the memory of the optimizers and
the synthetic syntax, which grows. -/
def CompileState.Revised (s s' : CompileState σ) : Prop :=
  ∃ memory synthetic, s' = { s with memory := memory, synthetic := synthetic } ∧
    s.synthetic.Grows synthetic

theorem CompileState.Revised.refl (s : CompileState σ) : s.Revised s :=
  ⟨s.memory, s.synthetic, rfl, .refl _⟩

theorem CompileState.Revised.trans {s s₁ s₂ : CompileState σ} (h : s.Revised s₁)
    (h' : s₁.Revised s₂) : s.Revised s₂ := by
  obtain ⟨_, _, rfl, hgrows⟩ := h
  obtain ⟨memory, synthetic, rfl, hgrows'⟩ := h'
  exact ⟨memory, synthetic, rfl, hgrows.trans hgrows'⟩

theorem CompileState.Revised.grows {s s' : CompileState σ} (h : s.Revised s') :
    s.synthetic.Grows s'.synthetic := by
  obtain ⟨_, _, rfl, hgrows⟩ := h
  exact hgrows

namespace CompileInput

variable {input : CompileInput σ} {context : PlanContext} {m m' : SelectionMap}
  {s s' : CompileState σ}

theorem revised_applyOptimizer {o : Optimizer σ}
    (h : Runs (input.applyOptimizer context m o) s m' s') :
    s.Revised s' ∧
      (o.revise context (s.view input.document) m s.memory).run input.document.syntaxArena
        s.synthetic = ((.ok m', s'.memory), s'.synthetic) := by
  unfold applyOptimizer at h
  obtain ⟨_, _, hget, h⟩ := runs_bind.1 h
  obtain ⟨hs, hs'⟩ := runs_get.1 hget
  rw [hs, hs'] at h
  dsimp only at h
  have hgrows := (o.revise context (s.view input.document) m s.memory).grows_run
    input.document.syntaxArena s.synthetic
  rcases hrun : (o.revise context (s.view input.document) m s.memory).run
    input.document.syntaxArena s.synthetic with ⟨⟨result, memory⟩, synthetic⟩
  rw [hrun] at h hgrows
  obtain ⟨_, s₁, hset, h⟩ := runs_bind.1 h
  have hs₁ := runs_set.1 hset
  subst hs₁
  cases result with
  | error e => exact absurd h not_runs_throw
  | ok m₁ =>
      obtain ⟨rfl, rfl⟩ := runs_pure.1 h
      exact ⟨⟨memory, synthetic, rfl, hgrows⟩, rfl⟩

/-- What holds of the drafts that lawful optimizers are handed, and of internal selections, holds
of the drafts that they leave, one after another. -/
theorem leaves_applyOptimizers {optimizers : List (Optimizer σ)}
    {P : SyntaxArena → SelectionDraft → Prop} (hlawful : ∀ o ∈ optimizers, o.Lawful)
    (hgrow : ∀ {a b d}, a.Grows b → P a d → P b d)
    (hinternal : ∀ {b id d}, s.synthetic.Grows b →
      internalSelection context ⟨input.document.syntaxArena, b⟩ id = .ok d → P b d)
    (hm : ∀ d ∈ m.values, P s.synthetic d)
    (h : Runs (optimizers.foldlM (input.applyOptimizer context) m) s m' s') :
    s.Revised s' ∧ ∀ d ∈ m'.values, P s'.synthetic d := by
  induction optimizers generalizing m s with
  | nil =>
      obtain ⟨rfl, rfl⟩ := runs_foldlM_nil.1 h
      exact ⟨.refl _, hm⟩
  | cons o os ih =>
      obtain ⟨m₁, s₁, hone, h⟩ := runs_foldlM_cons.1 h
      obtain ⟨hrevised, hrun⟩ := revised_applyOptimizer hone
      -- what one optimizer leaves is what the next one is handed
      have hleaves := (hlawful o List.mem_cons_self context _ m s.memory).leaves (P := P) hgrow
        hinternal (fun d hd => hd.elim (hm d) fun ⟨_, hid⟩ => hinternal (.refl _) hid) hrun
      obtain ⟨hrest, hleaves'⟩ := ih (fun o ho => hlawful o (List.mem_cons_of_mem _ ho))
        (fun hb hid => hinternal (hrevised.grows.trans hb) hid) hleaves h
      exact ⟨hrevised.trans hrest, hleaves'⟩

theorem misplaced?_eq_none_iff : misplaced? m = none ↔ ∀ e ∈ m.entries, e.1 = e.2.responseKey := by
  simp [misplaced?]

/-- A draft that is put in under its response key is not misplaced, wherever it comes from. -/
theorem misplaced?_insert (h : misplaced? m = none) (d : SelectionDraft) :
    misplaced? (m.insert d.responseKey d) = none := by
  rw [misplaced?_eq_none_iff] at h ⊢
  intro e he
  have hget := OrderedMap.get?_eq_some_iff.2 he
  by_cases heq : e.1 = d.responseKey
  · rw [heq, OrderedMap.get?_insert_self, Option.some_inj] at hget
    rw [heq, hget]
  · rw [OrderedMap.get?_insert_of_ne m d heq] at hget
    exact h e (OrderedMap.get?_eq_some_iff.1 hget)

/-- Once lawful optimizers have revised a selection set, its drafts stand under their response
keys, and what held of those before and holds of internal selections holds of them. -/
theorem leaves_optimize {optimizers : List (Optimizer σ)}
    {P : SyntaxArena → SelectionDraft → Prop} (hlawful : ∀ o ∈ optimizers, o.Lawful)
    (hgrow : ∀ {a b d}, a.Grows b → P a d → P b d)
    (hinternal : ∀ {b id d}, s.synthetic.Grows b →
      internalSelection context ⟨input.document.syntaxArena, b⟩ id = .ok d → P b d)
    (hm : ∀ d ∈ m.values, P s.synthetic d) (hkeys : ∀ e ∈ m.entries, e.1 = e.2.responseKey)
    (h : Runs (input.optimize context optimizers m) s m' s') :
    s.Revised s' ∧ (∀ d ∈ m'.values, P s'.synthetic d) ∧
      ∀ e ∈ m'.entries, e.1 = e.2.responseKey := by
  unfold optimize at h
  split at h
  · obtain ⟨rfl, rfl⟩ := runs_pure.1 h
    exact ⟨.refl _, hm, hkeys⟩
  · obtain ⟨m₁, s₁, hfold, h⟩ := runs_bind.1 h
    split at h
    · rename_i hplaced
      obtain ⟨rfl, rfl⟩ := runs_pure.1 h
      obtain ⟨hrevised, hleaves⟩ := leaves_applyOptimizers (P := P) hlawful hgrow
        hinternal hm hfold
      exact ⟨hrevised, hleaves, misplaced?_eq_none_iff.1 hplaced⟩
    · exact absurd h not_runs_throw

/-- Once lawful optimizers have revised a selection set, its drafts fit and stand under their
response keys. -/
theorem fits_optimize {optimizers : List (Optimizer σ)} (hlawful : ∀ o ∈ optimizers, o.Lawful)
    (hview : (s.view input.document).Bounded) (hnamed : context.objectType.Named)
    (hm : ∀ d ∈ m.values, d.Fits context.objectType s.synthetic)
    (hkeys : ∀ e ∈ m.entries, e.1 = e.2.responseKey)
    (h : Runs (input.optimize context optimizers m) s m' s') :
    s.Revised s' ∧ (∀ d ∈ m'.values, d.Fits context.objectType s'.synthetic) ∧
      ∀ e ∈ m'.entries, e.1 = e.2.responseKey :=
  leaves_optimize (P := fun a d => d.Fits context.objectType a) hlawful
    (fun hab hd => hd.grow hab)
    (fun hb hid => fits_internalSelection (hview.grow hb) hnamed hid) hm hkeys h

/-- Optimizers that keep drafts as they are leave them as they are, one after another. -/
theorem applyOptimizers_of_keeps {optimizers : List (Optimizer σ)}
    (hkeeps : ∀ o ∈ optimizers, o.Keeps) (s : CompileState σ) :
    ∃ s', Runs (optimizers.foldlM (input.applyOptimizer context) m) s m s' ∧ s.Revised s' := by
  induction optimizers generalizing s with
  | nil => exact ⟨s, runs_foldlM_nil.2 ⟨rfl, rfl⟩, .refl s⟩
  | cons o os ih =>
      rw [List.forall_mem_cons] at hkeeps
      obtain ⟨memory, synthetic, hrun⟩ :=
        hkeeps.1 context input.document.syntaxArena s.synthetic m s.memory
      -- only what the optimizer remembers and the synthetic syntax may change
      have hone : Runs (input.applyOptimizer context m o) s m
          { s with memory := memory, synthetic := synthetic } := by
        unfold applyOptimizer CompileState.view
        refine runs_bind.2 ⟨s, s, runs_get.2 ⟨rfl, rfl⟩, ?_⟩
        dsimp only
        rw [hrun]
        exact runs_bind.2 ⟨⟨⟩, _, runs_set.2 rfl, runs_pure.2 ⟨rfl, rfl⟩⟩
      obtain ⟨s', hrest, hrevised⟩ :=
        ih hkeeps.2 { s with memory := memory, synthetic := synthetic }
      exact ⟨s', runs_foldlM_cons.2 ⟨m, _, hone, hrest⟩,
        (revised_applyOptimizer hone).1.trans hrevised⟩

/-- Drafts that stand under their response keys stay as they are where all optimizers keep
them. -/
theorem optimize_of_keeps {optimizers : List (Optimizer σ)} (hkeeps : ∀ o ∈ optimizers, o.Keeps)
    (hkeys : ∀ e ∈ m.entries, e.1 = e.2.responseKey) (s : CompileState σ) :
    ∃ s', Runs (input.optimize context optimizers m) s m s' ∧ s.Revised s' := by
  unfold optimize
  split
  · exact ⟨s, runs_pure.2 ⟨rfl, rfl⟩, .refl s⟩
  · obtain ⟨s', hfold, hrevised⟩ := applyOptimizers_of_keeps hkeeps s
    refine ⟨s', runs_bind.2 ⟨m, s', hfold, ?_⟩, hrevised⟩
    rw [misplaced?_eq_none_iff.2 hkeys]
    exact runs_pure.2 ⟨rfl, rfl⟩

theorem optimize_of_passive {optimizers : List (Optimizer σ)}
    (hpassive : ∀ o ∈ optimizers, o.Passive) (hkeys : ∀ e ∈ m.entries, e.1 = e.2.responseKey)
    (s : CompileState σ) :
    ∃ s', Runs (input.optimize context optimizers m) s m s' ∧ s.Revised s' :=
  optimize_of_keeps (fun o ho => (hpassive o ho).keeps) hkeys s

end CompileInput

/-! ## Rules are lawful -/

namespace Rule

theorem mem_values_insert {m : SelectionMap} {key : String} {d e : SelectionDraft}
    (h : e ∈ (m.insert key d).values) : e = d ∨ e ∈ m.values := by
  obtain ⟨k, hk⟩ := OrderedMap.mem_values_iff.1 h
  by_cases heq : k = key
  · rw [heq, OrderedMap.get?_insert_self, Option.some_inj] at hk
    exact Or.inl hk.symm
  · rw [OrderedMap.get?_insert_of_ne m d heq] at hk
    exact Or.inr (OrderedMap.mem_values_iff.2 ⟨k, hk⟩)

theorem mem_values_swapErase {m : SelectionMap} {key : String} {e : SelectionDraft}
    (h : e ∈ (m.swapErase key).values) : e ∈ m.values := by
  unfold OrderedMap.swapErase at h
  have hdrop : ∀ {x}, x ∈ m.entries.dropLast → x.2 ∈ m.values := fun hx =>
    List.mem_map_of_mem (List.dropLast_subset _ hx)
  split at h
  · exact h
  · rename_i l hl
    have hlast : l.2 ∈ m.values := List.mem_map_of_mem (List.mem_of_getLast? hl)
    -- the last entry is dropped, and may take the place of the one that is removed
    split at h
    · obtain ⟨x, hx, rfl⟩ := List.mem_map.1 h
      exact hdrop hx
    · split at h
      · obtain ⟨x, hx, rfl⟩ := List.mem_map.1 h
        obtain ⟨y, hy, rfl⟩ := List.mem_map.1 hx
        split
        · exact hlast
        · exact hdrop hy
      · exact h

/-- An edit only leaves drafts that were there. -/
theorem mem_values_apply {m : SelectionMap} {edit : Edit} {e : SelectionDraft}
    (h : e ∈ (edit.apply m).values) : e ∈ m.values := by
  cases edit with
  | remove key =>
      obtain ⟨x, hx, rfl⟩ := List.mem_map.1 h
      exact List.mem_map_of_mem (List.mem_of_mem_filter hx)
  | swapRemove key => exact mem_values_swapErase h
  | copyFirst key =>
      simp only [Edit.apply] at h
      split at h
      · exact h
      · rename_i d hd
        rcases mem_values_insert h with rfl | h
        · exact List.mem_of_head? hd
        · exact h
  | rekey old new =>
      simp only [Edit.apply] at h
      split at h
      · exact h
      · rename_i d hd
        rcases mem_values_insert h with rfl | h
        · exact OrderedMap.mem_values_iff.2 ⟨old, hd⟩
        · obtain ⟨x, hx, rfl⟩ := List.mem_map.1 h
          exact List.mem_map_of_mem (List.mem_of_mem_filter hx)
  | reverse =>
      obtain ⟨x, hx, rfl⟩ := List.mem_map.1 h
      exact List.mem_map_of_mem (List.mem_reverse.1 hx)
  | sort =>
      obtain ⟨x, hx, rfl⟩ := List.mem_map.1 h
      exact List.mem_map_of_mem ((List.mergeSort_perm _ _).mem_iff.1 hx)
  | clear => exact absurd h List.not_mem_nil

/-- Putting in a field node puts in its internal selection. -/
theorem lawful_insertNode {context : PlanContext} {view : SyntaxView} {key : Option String}
    {m : SelectionMap} {id : FieldId} {journal : Journal} {allowed : SelectionDraft → Prop}
    (hm : ∀ d ∈ m.values, allowed d)
    (hid : ∀ d, internalSelection context view id = .ok d → allowed d) :
    Conversation.Lawful context allowed
      (.done (insertNode context view key m id, journal)) := by
  unfold insertNode
  cases hd : internalSelection context view id with
  | error e => trivial
  | ok d =>
      intro e he
      rcases mem_values_insert he with rfl | he
      · exact hid e hd
      · exact hm e he

/-- Every rule is lawful. -/
theorem lawful_optimizer (r : Rule) : r.optimizer.Lawful := by
  intro context view m journal
  have hkeep : Conversation.Lawful context
      (fun d => d ∈ m.values ∨ ∃ id, internalSelection context view id = .ok d)
      (.done (.ok m, journal)) := fun d hd => Or.inl hd
  simp only [optimizer]
  split
  · unfold reviseInRange
    cases r.action with
    | edit e => exact fun d hd => Or.inl (mem_values_apply hd)
    | insert field key absent =>
        dsimp only
        split
        · exact hkeep
        · cases field with
          | node id => exact lawful_insertNode hkeep fun d hd => Or.inr ⟨id, hd⟩
          -- new syntax is put in first, and then the selection of its field
          | source text =>
              intro answer view'
              cases answer with
              | error e => trivial
              | ok id =>
                  exact lawful_insertNode (fun d hd => Or.inl (Or.inl hd))
                    fun d hd => Or.inr ⟨id, hd⟩
    | lower source =>
        intro answer view'
        cases answer with
        | error e => trivial
        | ok id => exact fun d hd => Or.inl (Or.inl hd)
    | record recorder => exact fun d hd => Or.inl hd
    | nothing => exact hkeep
    | veto only fragment => exact hkeep
  · exact hkeep

end Rule

/-! ## Grafts -/

/-- Compiles an operation of its own for the schema at hand, and puts the selection that `scion`
picks from that plan into the selection sets at a path. -/
def Optimizer.grafting (document : Document) (fragments : FragmentIndex)
    (scion : Plan → Option Selection) (path : List String) : Optimizer σ where
  allowsSpread _ _ _ := pure true
  allowsInlineFragment _ _ := pure true
  revise context _ m memory :=
    let own : CompileInput Unit := ⟨context.schema, document, fragments, .empty⟩
    match (own.compile none ()).1 with
    | .error e => .done (.error e, memory)
    | .ok p =>
      match (scion p).filter fun _ => context.responseKeys = path with
      | none => .done (.ok m, memory)
      | some s => .done (.ok (m.insert s.responseKey s.toSelectionDraft), memory)

/-- No graft is rejected, though its nodes and its key are those of another plan. -/
theorem Optimizer.misplaced?_of_grafting {document : Document} {fragments : FragmentIndex}
    {scion : Plan → Option Selection} {path : List String} {context : PlanContext}
    {view : SyntaxView} {m m' : SelectionMap} {memory memory' : σ}
    (h : (grafting document fragments scion path).revise context view m memory =
      .done (.ok m', memory')) (hm : CompileInput.misplaced? m = none) :
    CompileInput.misplaced? m' = none := by
  unfold grafting at h
  dsimp only at h
  split at h
  · cases h
  · split at h
    · cases h
      exact hm
    · cases h
      exact CompileInput.misplaced?_insert hm _

end QueryPlan
