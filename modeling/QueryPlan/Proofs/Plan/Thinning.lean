import QueryPlan.Proofs.Plan.Lawful

/-!
# Optimizers that only thin out

An optimizer thins out if all that it does to the drafts of a selection set is to take some out and
to put the others into another order. No draft gets another key that way, so revising never fails,
and whatever lies below the drafts that are left was below some draft before.
-/

set_option autoImplicit false

namespace QueryPlan

variable {σ : Type}

/-! ## Thinning -/

/-- The optimizer only takes out drafts or puts them into another order, though it may remember
what it has seen. -/
def Optimizer.Thins (o : Optimizer σ) : Prop :=
  ∀ context view m memory, ∃ m' memory',
    o.revise context view m memory = .done (.ok m', memory') ∧ m'.entries ⊆ m.entries

/-- All registered optimizers only thin out. -/
structure Pipeline.Thins (p : Pipeline σ) : Prop where
  general : ∀ o ∈ p.general, o.Thins
  byField : ∀ o ∈ p.byField, o.optimizer.Thins

theorem Optimizer.Passive.thins {o : Optimizer σ} (h : o.Passive) : o.Thins := by
  intro context view m memory
  obtain ⟨memory', hrevise⟩ := h context view m memory
  exact ⟨m, memory', hrevise, List.Subset.refl _⟩

theorem Pipeline.Passive.thins {p : Pipeline σ} (h : p.Passive) : p.Thins where
  general o ho := (h.general o ho).thins
  byField o ho := (h.byField o ho).thins

theorem Pipeline.Thins.below {p : Pipeline σ} (h : p.Thins) (t : ObjectType) (field : String) :
    ∀ o ∈ p.below t field, o.Thins :=
  forall_mem_below h.byField t field

theorem Pipeline.Thins.withOptimizer {p : Pipeline σ} (h : p.Thins) {o : Optimizer σ}
    (ho : o.Thins) : (p.withOptimizer o).Thins where
  general := Pipeline.forall_mem_withOptimizer h.general ho
  byField := h.byField

namespace CompileInput

variable {input : CompileInput σ}

/-- Drafts that stand under their response keys are thinned out without failure. -/
theorem optimize_of_thins {context : PlanContext} {optimizers : List (Optimizer σ)}
    (hthins : ∀ o ∈ optimizers, o.Thins) {m : SelectionMap}
    (hkeys : ∀ e ∈ m.entries, e.1 = e.2.responseKey) (s : CompileState σ) :
    ∃ m' s', Runs (input.optimize context optimizers m) s m' s' ∧ m'.entries ⊆ m.entries := by
  have hloop : ∀ (os : List (Optimizer σ)) (m : SelectionMap) (s : CompileState σ),
      (∀ o ∈ os, o.Thins) → ∃ m' s',
        Runs (os.foldlM (input.applyOptimizer context) m) s m' s' ∧ m'.entries ⊆ m.entries := by
    intro os
    induction os with
    | nil => exact fun m s _ => ⟨m, s, runs_foldlM_nil.2 ⟨rfl, rfl⟩, List.Subset.refl _⟩
    | cons o os ih =>
        intro m s hos
        rw [List.forall_mem_cons] at hos
        obtain ⟨m₁, memory, hrevise, hsub⟩ := hos.1 context (s.view input.document) m s.memory
        have hone : Runs (input.applyOptimizer context m o) s m₁ { s with memory := memory } := by
          unfold applyOptimizer
          refine runs_bind.2 ⟨s, s, runs_get.2 ⟨rfl, rfl⟩, ?_⟩
          rw [hrevise]
          exact runs_bind.2 ⟨⟨⟩, _, runs_set.2 rfl, runs_pure.2 ⟨rfl, rfl⟩⟩
        obtain ⟨m', s', hrest, hsub'⟩ := ih m₁ { s with memory := memory } hos.2
        exact ⟨m', s', runs_foldlM_cons.2 ⟨m₁, _, hone, hrest⟩, List.Subset.trans hsub' hsub⟩
  unfold optimize
  split
  · exact ⟨m, s, runs_pure.2 ⟨rfl, rfl⟩, List.Subset.refl _⟩
  · obtain ⟨m', s', hfold, hsub⟩ := hloop optimizers m s hthins
    refine ⟨m', s', runs_bind.2 ⟨m', s', hfold, ?_⟩, hsub⟩
    rw [misplaced?_eq_none_iff.2 fun e he => hkeys e (hsub he)]
    exact runs_pure.2 ⟨rfl, rfl⟩

end CompileInput

/-! ## Rules that only thin out -/

/-- The edit leaves no draft under another key than before. -/
def Edit.Thins : Edit → Prop
  | .copyFirst _ | .rekey _ _ => False
  | _ => True

/-- The action only thins out drafts, refuses deferrals or writes down what it is shown. -/
def RuleAction.Thins : RuleAction → Prop
  | .edit e => e.Thins
  | .insert _ _ _ | .lower _ => False
  | _ => True

namespace Rule

theorem entries_swapErase_subset (m : SelectionMap) (key : String) :
    (m.swapErase key).entries ⊆ m.entries := by
  unfold OrderedMap.swapErase
  have hdrop : m.entries.dropLast ⊆ m.entries := List.dropLast_subset _
  split
  · exact List.Subset.refl _
  · rename_i last hlast
    split
    · exact hdrop
    · split
      -- the last entry may have taken the place of the one that is removed
      · intro x hx
        obtain ⟨y, hy, rfl⟩ := List.mem_map.1 hx
        split
        · exact List.mem_of_getLast? hlast
        · exact hdrop hy
      · exact List.Subset.refl _

theorem entries_apply_subset {edit : Edit} (h : edit.Thins) (m : SelectionMap) :
    (edit.apply m).entries ⊆ m.entries := by
  cases edit with
  | remove key => exact List.filter_sublist.subset
  | swapRemove key => exact entries_swapErase_subset m key
  | copyFirst key => exact h.elim
  | rekey old new => exact h.elim
  | reverse => exact fun _ hx => List.mem_reverse.1 hx
  | sort => exact fun _ hx => (List.mergeSort_perm _ _).mem_iff.1 hx
  | clear => exact List.nil_subset _

/-- A rule with such an action only thins out. -/
theorem thins_optimizer {r : Rule} (h : r.action.Thins) : r.optimizer.Thins := by
  intro context view m journal
  simp only [optimizer]
  split
  · unfold reviseInRange
    cases haction : r.action with
    | edit e =>
        rw [haction] at h
        exact ⟨e.apply m, journal, rfl, entries_apply_subset h m⟩
    | insert field key absent =>
        rw [haction] at h
        exact h.elim
    | lower source =>
        rw [haction] at h
        exact h.elim
    | record recorder => exact ⟨m, _, rfl, List.Subset.refl _⟩
    | nothing => exact ⟨m, journal, rfl, List.Subset.refl _⟩
    | veto only fragment => exact ⟨m, journal, rfl, List.Subset.refl _⟩
  · exact ⟨m, journal, rfl, List.Subset.refl _⟩

end Rule

end QueryPlan
