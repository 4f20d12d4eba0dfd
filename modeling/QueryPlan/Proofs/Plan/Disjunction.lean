import Mathlib.Data.Finset.Basic
import QueryPlan.Proofs.Plan.Canonical

/-!
# Disjunctions keep the weakest clauses

Of the clauses that were added to a disjunction, it keeps those that no other one makes redundant
(`Minimal`). A clause that is dropped may be made redundant by one that goes itself later on, but
then by the one that takes its place too: something weaker is always there (`Minimal.covers`). Which
clauses these are is a matter of which were added, and not of the order.
-/

set_option autoImplicit false

namespace QueryPlan

namespace Clause

variable {c e : Clause}

theorem isAlways_iff : c.isAlways = true ↔ c = always := by
  cases c
  simp [isAlways, always]

/-- What a clause asks for, whatever the order. -/
def conditionSet (c : Clause) : Finset Condition := c.conditions.toFinset

theorem subsumes_iff_conditionSet : e.subsumes c = true ↔ e.conditionSet ⊆ c.conditionSet := by
  simp [subsumes_iff_subset, conditionSet, List.subset_def, Finset.subset_iff]

/-- A clause asks for less than another one if it subsumes it and is not the same. -/
theorem Canonical.conditionSet_ssubset_iff (he : e.Canonical) (hc : c.Canonical) :
    e.conditionSet ⊂ c.conditionSet ↔ e.subsumes c = true ∧ e ≠ c := by
  rw [Finset.ssubset_iff_subset_ne, subsumes_iff_conditionSet]
  refine and_congr_right fun hsub => not_congr ⟨fun heq => ?_, fun heq => heq ▸ rfl⟩
  apply he.subsumes_antisymm hc
  · exact subsumes_iff_conditionSet.2 hsub
  · exact subsumes_iff_conditionSet.2 heq.ge

end Clause

namespace IncludeCondition

/-- The condition of several paths with these clauses, added in turn. -/
def ofClauses (added : List Clause) : IncludeCondition := added.foldl addClause never

theorem ofClauses_concat (added : List Clause) (c : Clause) :
    ofClauses (added ++ [c]) = (ofClauses added).addClause c := by
  rw [ofClauses, List.foldl_append]
  rfl

/-! ## What is kept of the clauses -/

/-- Of the clauses that were added those are kept, once each, that no other one makes redundant;
whatever was added, something that subsumes it is kept. -/
structure Minimal (added kept : List Clause) : Prop where
  nodup : kept.Nodup
  mem_iff : ∀ c, c ∈ kept ↔ c ∈ added ∧ ∀ e ∈ added, e.subsumes c = true → e = c
  covers : ∀ c ∈ added, ∃ e ∈ kept, e.subsumes c = true

namespace Minimal

variable {added kept : List Clause} {c : Clause}

theorem nil : Minimal [] [] := ⟨.nil, by simp, by simp⟩

theorem subset (h : Minimal added kept) : kept ⊆ added := fun _ hc => ((h.mem_iff _).1 hc).1

/-- A clause that is subsumed already is left out. -/
theorem absorb (h : Minimal added kept) (hcanonical : ∀ e ∈ added ++ [c], e.Canonical) {e : Clause}
    (he : e ∈ kept) (hsub : e.subsumes c = true) : Minimal (added ++ [c]) kept where
  nodup := h.nodup
  covers x hx := by
    rcases List.mem_append.1 hx with hx | hx
    · exact h.covers x hx
    · exact ⟨e, he, List.mem_singleton.1 hx ▸ hsub⟩
  mem_iff x := by
    have hc : c ∈ added ++ [c] := List.mem_append_right _ (List.mem_singleton_self c)
    have hadded (y : Clause) (hy : y ∈ added) : y ∈ added ++ [c] := List.mem_append_left _ hy
    rw [h.mem_iff]
    constructor
    · rintro ⟨hx, hmin⟩
      refine ⟨hadded x hx, fun y hy hyx => ?_⟩
      rcases List.mem_append.1 hy with hy | hy
      · exact hmin y hy hyx
      -- what the new clause makes redundant, the one that was there does
      · obtain rfl := List.mem_singleton.1 hy
        have hex : e = x := hmin e (h.subset he) (Clause.subsumes_trans hsub hyx)
        subst hex
        exact (hcanonical y hc).subsumes_antisymm (hcanonical e (hadded e hx)) hyx hsub
    · rintro ⟨hx, hmin⟩
      refine ⟨?_, fun y hy => hmin y (hadded y hy)⟩
      rcases List.mem_append.1 hx with hx | hx
      · exact hx
      -- the new clause itself is one of the old ones, if it is not redundant
      · obtain rfl := List.mem_singleton.1 hx
        exact hmin e (hadded e (h.subset he)) hsub ▸ h.subset he

/-- A clause that nothing subsumes takes the place of those that it subsumes. -/
theorem evict (h : Minimal added kept) (hcanonical : ∀ e ∈ added ++ [c], e.Canonical)
    (hnew : ∀ e ∈ kept, e.subsumes c = false) :
    Minimal (added ++ [c]) (kept.filter (fun e => !c.subsumes e) ++ [c]) := by
  have hc : c ∈ added ++ [c] := List.mem_append_right _ (List.mem_singleton_self c)
  have hadded (y : Clause) (hy : y ∈ added) : y ∈ added ++ [c] := List.mem_append_left _ hy
  have hstays (x : Clause) : x ∈ kept.filter (fun e => !c.subsumes e) ↔
      x ∈ kept ∧ c.subsumes x = false := by
    rw [List.mem_filter, Bool.not_eq_true']
  -- nothing that was added subsumes the new clause, since something kept would then
  have hfree (e : Clause) (he : e ∈ added) : e.subsumes c = false := by
    obtain ⟨k, hk, hke⟩ := h.covers e he
    by_contra hec
    have hkc : k.subsumes c = true := Clause.subsumes_trans hke (by simpa using hec)
    rw [hnew k hk] at hkc
    cases hkc
  refine ⟨?_, fun x => ?_, fun x hx => ?_⟩
  · rw [List.nodup_append]
    refine ⟨h.nodup.filter _, List.nodup_singleton c, fun x hx y hy => ?_⟩
    obtain rfl := List.mem_singleton.1 hy
    rintro rfl
    have hself := hnew x ((hstays x).1 hx).1
    rw [x.subsumes_refl] at hself
    cases hself
  · rw [List.mem_append, List.mem_singleton, hstays, h.mem_iff]
    constructor
    · rintro (⟨⟨hx, hmin⟩, hcx⟩ | rfl)
      · refine ⟨hadded x hx, fun y hy hyx => ?_⟩
        rcases List.mem_append.1 hy with hy | hy
        · exact hmin y hy hyx
        · rw [List.mem_singleton.1 hy, hcx] at hyx
          cases hyx
      · refine ⟨hc, fun y hy hyx => ?_⟩
        rcases List.mem_append.1 hy with hy | hy
        · rw [hfree y hy] at hyx
          cases hyx
        · exact List.mem_singleton.1 hy
    · rintro ⟨hx, hmin⟩
      by_cases hxc : x = c
      · exact Or.inr hxc
      · have hx : x ∈ added := (List.mem_append.1 hx).resolve_right fun hx =>
          hxc (List.mem_singleton.1 hx)
        refine Or.inl ⟨⟨hx, fun y hy => hmin y (hadded y hy)⟩, ?_⟩
        by_contra hcx
        exact hxc (hmin c hc (by simpa using hcx)).symm
  · rcases List.mem_append.1 hx with hx | hx
    · obtain ⟨k, hk, hkx⟩ := h.covers x hx
      -- what covered the clause stays, or goes for the new one
      by_cases hck : c.subsumes k = true
      · exact ⟨c, List.mem_append_right _ (List.mem_singleton_self c),
          Clause.subsumes_trans hck hkx⟩
      · rw [Bool.not_eq_true] at hck
        exact ⟨k, List.mem_append_left _ ((hstays k).2 ⟨hk, hck⟩), hkx⟩
    · exact ⟨c, List.mem_append_right _ (List.mem_singleton_self c),
        List.mem_singleton.1 hx ▸ c.subsumes_refl⟩

end Minimal

variable {added : List Clause}

/-- Some clause without conditions makes everything unconditional; without one, the weakest
clauses are kept. -/
theorem ofClauses_cases (h : ∀ c ∈ added, c.Canonical) :
    Clause.always ∈ added ∧ ofClauses added = always ∨
      Clause.always ∉ added ∧ ∃ kept, ofClauses added = anyOf kept ∧ Minimal added kept := by
  induction added using List.reverseRecOn with
  | nil => exact Or.inr ⟨List.not_mem_nil, [], rfl, .nil⟩
  | append_singleton added c ih =>
      rw [ofClauses_concat]
      rcases ih fun e he => h e (List.mem_append_left _ he) with
        ⟨hmem, heq⟩ | ⟨hnot, kept, heq, hmin⟩
      · rw [heq]
        exact Or.inl ⟨List.mem_append_left _ hmem, rfl⟩
      · rw [heq, addClause]
        by_cases hc : c.isAlways = true
        · rw [if_pos hc, ← Clause.isAlways_iff.1 hc]
          exact Or.inl ⟨List.mem_append_right _ (List.mem_singleton_self c), rfl⟩
        · have hnot' : Clause.always ∉ added ++ [c] := by
            rw [List.mem_append, List.mem_singleton, not_or]
            exact ⟨hnot, fun heq => hc (Clause.isAlways_iff.2 heq.symm)⟩
          rw [if_neg hc]
          refine Or.inr ⟨hnot', ?_⟩
          by_cases hany : kept.any (·.subsumes c) = true
          · rw [if_pos hany]
            obtain ⟨e, he, hsub⟩ := List.any_eq_true.1 hany
            exact ⟨kept, rfl, hmin.absorb h he hsub⟩
          · rw [if_neg hany]
            refine ⟨_, rfl, hmin.evict h fun e he => ?_⟩
            by_contra hsub
            exact hany (List.any_eq_true.2 ⟨e, he, by simpa using hsub⟩)

/-- Clauses that some others make redundant ask for more than these. -/
theorem Minimal.mem_iff_conditionSet {kept : List Clause} (h : Minimal added kept)
    (hcanonical : ∀ c ∈ added, c.Canonical) (c : Clause) :
    c ∈ kept ↔ c ∈ added ∧ ∀ e ∈ added, ¬ e.conditionSet ⊂ c.conditionSet := by
  rw [h.mem_iff]
  refine and_congr_right fun hc => forall₂_congr fun e he => ?_
  rw [(hcanonical e he).conditionSet_ssubset_iff (hcanonical c hc), not_and, not_not]

theorem isIncluded_ofClauses {vars : Variables} :
    (ofClauses added).isIncluded vars = true ↔ ∃ c ∈ added, c.isSatisfied vars = true := by
  rw [ofClauses, isIncluded_foldl_addClause, isIncluded_never]
  simp

/-- No path was added exactly where nothing can be included. -/
theorem isNever_ofClauses_iff (h : ∀ c ∈ added, c.Canonical) :
    (ofClauses added).isNever = true ↔ added = [] := by
  constructor
  · intro hnever
    rcases ofClauses_cases h with ⟨-, heq⟩ | ⟨-, kept, heq, hmin⟩
    · rw [heq] at hnever
      cases hnever
    · rw [heq, isNever, List.isEmpty_iff] at hnever
      refine List.eq_nil_iff_forall_not_mem.2 fun c hc => ?_
      obtain ⟨e, he, -⟩ := hmin.covers c hc
      rw [hnever] at he
      cases he
  · rintro rfl
    rfl

theorem eq_nil_iff_never_included (h : ∀ c ∈ added, c.Canonical) :
    added = [] ↔ ∀ vars, (ofClauses added).isIncluded vars = false := by
  constructor
  · rintro rfl vars
    rfl
  · intro hnone
    refine List.eq_nil_iff_forall_not_mem.2 fun c hc => ?_
    -- every clause can be satisfied
    obtain ⟨vars, hvars⟩ := (h c hc).satisfiable
    have hincluded := isIncluded_ofClauses.2 ⟨c, hc, hvars⟩
    rw [hnone vars] at hincluded
    cases hincluded

/-- The order of the clauses decides nothing but the order of those that are kept. -/
theorem ofClauses_perm {added' : List Clause} (h : ∀ c ∈ added, c.Canonical)
    (hperm : added.Perm added') :
    (ofClauses added').isConditional = (ofClauses added).isConditional ∧
      ∀ c, c ∈ (ofClauses added').clauses ↔ c ∈ (ofClauses added).clauses := by
  have h' : ∀ c ∈ added', c.Canonical := fun c hc => h c (hperm.mem_iff.2 hc)
  rcases ofClauses_cases h with ⟨hmem, heq⟩ | ⟨hnot, kept, heq, hmin⟩ <;>
    rcases ofClauses_cases h' with ⟨hmem', heq'⟩ | ⟨hnot', kept', heq', hmin'⟩
  · rw [heq, heq']
    exact ⟨rfl, fun _ => Iff.rfl⟩
  · exact absurd (hperm.mem_iff.1 hmem) hnot'
  · exact absurd (hperm.mem_iff.2 hmem') hnot
  · rw [heq, heq']
    refine ⟨rfl, fun c => ?_⟩
    calc c ∈ kept'
        ↔ c ∈ added' ∧ ∀ e ∈ added', e.subsumes c = true → e = c := hmin'.mem_iff c
      _ ↔ c ∈ added ∧ ∀ e ∈ added, e.subsumes c = true → e = c := by simp only [hperm.mem_iff]
      _ ↔ c ∈ kept := (hmin.mem_iff c).symm

/-- **A disjunction keeps the weakest of its clauses, in whatever order they are added.** Of clauses
that were built up by `and` an empty one makes it unconditional; without one, exactly those are
kept, once each, than which no other one asks for less. It holds where one of the clauses does, and
is never met only if there are none. -/
theorem weakest_of_ofClauses {added : List Clause}
    (hadded : ∀ c ∈ added, ∃ xs, Clause.ofConditions xs = some c) :
    (ofClauses added = always ↔ Clause.always ∈ added) ∧
    (Clause.always ∉ added → ∃ kept, ofClauses added = anyOf kept ∧ kept.Nodup ∧
      ∀ c, c ∈ kept ↔ c ∈ added ∧ ∀ e ∈ added, ¬ e.conditionSet ⊂ c.conditionSet) ∧
    (∀ vars, (ofClauses added).isIncluded vars = true ↔
      ∃ c ∈ added, c.isSatisfied vars = true) ∧
    ((ofClauses added).isNever = true ↔ added = []) ∧
    ((ofClauses added).isNever = true ↔ ∀ vars, (ofClauses added).isIncluded vars = false) ∧
    ∀ added', added.Perm added' →
      (ofClauses added').isConditional = (ofClauses added).isConditional ∧
        ∀ c, c ∈ (ofClauses added').clauses ↔ c ∈ (ofClauses added).clauses := by
  have hcanonical : ∀ c ∈ added, c.Canonical := by
    intro c hc
    obtain ⟨xs, hxs⟩ := hadded c hc
    exact Clause.canonical_of_ofConditions hxs
  have hnever := isNever_ofClauses_iff hcanonical
  refine ⟨?_, fun hnot => ?_, fun vars => isIncluded_ofClauses, hnever,
    hnever.trans (eq_nil_iff_never_included hcanonical), fun _ => ofClauses_perm hcanonical⟩
  · rcases ofClauses_cases hcanonical with ⟨hmem, heq⟩ | ⟨hnot, kept, heq, -⟩
    · exact iff_of_true heq hmem
    · rw [heq]
      exact iff_of_false IncludeCondition.noConfusion hnot
  · obtain ⟨hmem, -⟩ | ⟨-, kept, heq, hmin⟩ := ofClauses_cases hcanonical
    · exact absurd hmem hnot
    · exact ⟨kept, heq, hmin.nodup, hmin.mem_iff_conditionSet hcanonical⟩

/-- Four paths, of which the third one makes the first and the last one redundant. -/
def absorbing : List Clause :=
  [⟨[.includeIf "a", .includeIf "b"]⟩, ⟨[.includeIf "c"]⟩, ⟨[.includeIf "a"]⟩,
   ⟨[.includeIf "a", .skipIf "d"]⟩]

/-- The weakest clauses are kept, and are the same when the paths come in the opposite order. -/
theorem weakest_absorbing :
    (∀ c, c ∈ [⟨[.includeIf "c"]⟩, ⟨[.includeIf "a"]⟩] ↔
      c ∈ absorbing ∧ ∀ e ∈ absorbing, ¬ e.conditionSet ⊂ c.conditionSet) ∧
    ∀ c, c ∈ (ofClauses absorbing.reverse).clauses ↔
      c ∈ [⟨[.includeIf "c"]⟩, ⟨[.includeIf "a"]⟩] := by
  have hbuilt : ∀ c ∈ absorbing, Clause.ofConditions c.conditions = some c := by decide
  have hkept : ofClauses absorbing = anyOf [⟨[.includeIf "c"]⟩, ⟨[.includeIf "a"]⟩] := by decide
  obtain ⟨-, hweakest, -, -, -, hperm⟩ :=
    weakest_of_ofClauses fun c hc => ⟨c.conditions, hbuilt c hc⟩
  obtain ⟨kept, heq, -, hmem⟩ := hweakest (by decide)
  obtain ⟨-, hsame⟩ := hperm _ (List.reverse_perm _).symm
  rw [hkept] at heq hsame
  obtain rfl := anyOf.inj heq
  exact ⟨hmem, hsame⟩

end IncludeCondition

end QueryPlan
