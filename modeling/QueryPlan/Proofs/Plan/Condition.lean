import Mathlib.Tactic
import QueryPlan.Plan.Condition

/-!
# What conditions mean

`DirectiveNode.keeps` reads the directives `@skip` and `@include` for given variables, without
clauses. A clause to which directives are added holds exactly where the clause held and all of
them keep what they stand on; a clause that was given up would never have held. A disjunction
holds exactly where one of the clauses added to it does, whatever it has dropped as redundant.
-/

set_option autoImplicit false

namespace QueryPlan

/-! ## Directives, read for given variables -/

namespace DirectiveNode

/-- What the `if` argument of a directive comes to: a literal, or the value of a variable, which
reads as false where it is not bound to a boolean. Other arguments come to nothing. -/
def ifValue? (vars : Variables) (d : DirectiveNode) : Option Bool :=
  match d.arguments.get? "if" with
  | some (.boolean b) => some b
  | some (.var v) => some ((vars v).getD false)
  | _ => none

/-- Whether a directive keeps what it stands on. -/
def keeps (vars : Variables) (d : DirectiveNode) : Bool :=
  if d.name = "include" then (d.ifValue? vars).getD true
  else if d.name = "skip" then !(d.ifValue? vars).getD false
  else true

end DirectiveNode

/-- Whether all directives keep what they stand on. -/
def Variables.keep (vars : Variables) (ds : List DirectiveNode) : Bool :=
  ds.all (·.keeps vars)

namespace Clause

variable {vars : Variables}

/-! ## Clauses -/

theorem mem_insertSorted {x y : Condition} {xs : List Condition} :
    y ∈ insertSorted x xs ↔ y = x ∨ y ∈ xs := by
  induction xs with
  | nil => simp [insertSorted]
  | cons z zs ih =>
      unfold insertSorted
      split
      · simp
      · split
        · rename_i h
          simp [h]
        · simp [ih, or_left_comm]

theorem isSatisfied_iff {c : Clause} :
    c.isSatisfied vars = true ↔ ∀ x ∈ c.conditions, x.isSatisfied vars = true := by
  simp [isSatisfied]

/-- Opposite conditions do not hold together. -/
theorem not_satisfied_of_contradicts {c : Clause} {x : Condition}
    (h : c.contradicts x = true) (hc : c.isSatisfied vars = true) :
    x.isSatisfied vars = false := by
  obtain ⟨y, hy, hopp⟩ := List.any_eq_true.1 h
  have hsat := isSatisfied_iff.1 hc y hy
  simp only [Bool.and_eq_true, decide_eq_true_eq] at hopp
  obtain ⟨hvar, hneg⟩ := hopp
  simp only [Condition.isSatisfied, hvar] at hsat ⊢
  cases hv : (vars x.var).getD false <;> cases hn : y.negated <;> cases hm : x.negated <;>
    simp_all

/-- Adding a condition asks for that condition besides. -/
theorem any_and (c : Clause) (x : Condition) :
    (c.and x).any (·.isSatisfied vars) = (c.isSatisfied vars && x.isSatisfied vars) := by
  unfold Clause.and
  split
  -- the opposite of the condition is asked for already, and both do not hold
  · rename_i h
    cases hc : c.isSatisfied vars with
    | false => rfl
    | true => exact (not_satisfied_of_contradicts h hc).symm
  · rw [Option.any_some, Bool.eq_iff_iff, Bool.and_eq_true, isSatisfied_iff, isSatisfied_iff]
    simp only [mem_insertSorted, forall_eq_or_imp]
    exact and_comm

theorem any_andDirective (c : Clause) (d : DirectiveNode) :
    (c.andDirective d).any (·.isSatisfied vars) = (c.isSatisfied vars && d.keeps vars) := by
  -- a literal decides at once, a variable becomes a condition, other values are passed over
  unfold andDirective polarity? DirectiveNode.keeps DirectiveNode.ifValue?
  by_cases hi : d.name = "include"
  · rcases d.arguments.get? "if" with _ | v
    · simp [hi]
    · cases v with
      | boolean b => cases b <;> simp [hi]
      | var v => simp [hi, any_and, Condition.isSatisfied]
      | _ => simp [hi]
  · by_cases hs : d.name = "skip"
    · rcases d.arguments.get? "if" with _ | v
      · simp [hs]
      · cases v with
        | boolean b => cases b <;> simp [hs]
        | var v => simp [hs, any_and, Condition.isSatisfied]
        | _ => simp [hs]
    · simp [hi, hs]

/-- Where each step asks for one thing besides, all steps ask for all things besides. -/
theorem any_foldlM {α : Type} {f : Clause → α → Option Clause} {holds : α → Bool}
    (hstep : ∀ c a, (f c a).any (·.isSatisfied vars) = (c.isSatisfied vars && holds a))
    (c : Clause) (as : List α) :
    (as.foldlM f c).any (·.isSatisfied vars) = (c.isSatisfied vars && as.all holds) := by
  induction as generalizing c with
  | nil => exact (Bool.and_true _).symm
  | cons a as ih =>
      rw [List.foldlM_cons, List.all_cons, ← Bool.and_assoc, ← hstep]
      cases f c a with
      | none => rfl
      | some c' => exact ih c'

/-- Adding directives asks for all of them besides. -/
theorem any_andDirectives (c : Clause) (ds : List DirectiveNode) :
    (c.andDirectives ds).any (·.isSatisfied vars) = (c.isSatisfied vars && vars.keep ds) :=
  any_foldlM any_andDirective c ds

/-- The same for a clause that may have been given up already. -/
theorem any_bind_andDirectives (clause : Option Clause) (ds : List DirectiveNode) :
    (clause.bind fun c => c.andDirectives ds).any (·.isSatisfied vars)
      = (clause.any (·.isSatisfied vars) && vars.keep ds) := by
  cases clause with
  | none => rfl
  | some c => exact any_andDirectives c ds

theorem isSatisfied_of_isAlways {c : Clause} (h : c.isAlways = true) :
    c.isSatisfied vars = true := by
  rw [isAlways, List.isEmpty_iff] at h
  rw [isSatisfied, h]
  rfl

/-- A clause holds wherever one with more conditions does. -/
theorem isSatisfied_of_subsumes {a b : Clause} (h : a.subsumes b = true)
    (hb : b.isSatisfied vars = true) : a.isSatisfied vars = true := by
  rw [isSatisfied_iff] at hb ⊢
  intro x hx
  exact hb x (by simpa using List.all_eq_true.1 h x hx)

/-! ## Clauses that can hold -/

/-- The clause holds for some variables. -/
def Satisfiable (c : Clause) : Prop := ∃ vars, c.isSatisfied vars = true

theorem satisfiable_always : always.Satisfiable := ⟨fun _ => none, rfl⟩

/-- A condition that nothing contradicts can be met: its variable is free, or bound as it asks. -/
theorem satisfiable_and {c c' : Clause} {x : Condition} (hc : c.Satisfiable)
    (h : c.and x = some c') : c'.Satisfiable := by
  obtain ⟨vars, hvars⟩ := hc
  unfold Clause.and at h
  split at h
  · cases h
  · rename_i hfree
    cases h
    -- bind the variable as the condition asks, and leave the others as they are
    refine ⟨Function.update vars x.var (some !x.negated), isSatisfied_iff.2 fun y hy => ?_⟩
    by_cases hvar : y.var = x.var
    · have hneg : y.negated = x.negated := by
        rcases mem_insertSorted.1 hy with rfl | hy
        · rfl
        · by_contra hne
          refine hfree (List.any_eq_true.2 ⟨y, hy, ?_⟩)
          simpa [hvar] using hne
      simp [Condition.isSatisfied, hvar, hneg]
    · rcases mem_insertSorted.1 hy with rfl | hy
      · exact absurd rfl hvar
      · have hsat := isSatisfied_iff.1 hvars y hy
        rwa [Condition.isSatisfied, Function.update_of_ne hvar]

/-- A directive adds one condition to a clause, or none. -/
theorem andDirective_cases {c c' : Clause} {d : DirectiveNode} (h : c.andDirective d = some c') :
    c' = c ∨ ∃ x, c.and x = some c' := by
  unfold andDirective at h
  split at h
  · exact Or.inl (Option.some.inj h).symm
  · split at h
    · split at h
      · cases h
      · exact Or.inl (Option.some.inj h).symm
    · exact Or.inr ⟨_, h⟩
    · exact Or.inl (Option.some.inj h).symm

/-- What every step keeps holds of what all steps leave. -/
theorem foldlM_induct {α : Type} {f : Clause → α → Option Clause} (inv : Clause → Prop)
    {as : List α} (hstep : ∀ a ∈ as, ∀ {c c'}, inv c → f c a = some c' → inv c') {c c' : Clause}
    (hc : inv c) (h : as.foldlM f c = some c') : inv c' := by
  induction as generalizing c with
  | nil => exact Option.some.inj h ▸ hc
  | cons a as ih =>
      rw [List.forall_mem_cons] at hstep
      rw [List.foldlM_cons, Option.bind_eq_bind, Option.bind_eq_some_iff] at h
      obtain ⟨c₁, ha, has⟩ := h
      exact ih hstep.2 (hstep.1 hc ha) has

/-- What every further condition keeps, directives keep. -/
theorem andDirectives_induct {c c' : Clause} {ds : List DirectiveNode} (inv : Clause → Prop)
    (hstep : ∀ {c x c'}, inv c → c.and x = some c' → inv c') (hc : inv c)
    (h : c.andDirectives ds = some c') : inv c' := by
  refine foldlM_induct inv (fun d _ {c c'} hc h => ?_) hc h
  obtain rfl | ⟨x, hx⟩ := andDirective_cases h
  · exact hc
  · exact hstep hc hx

/-- Directives that leave a clause leave one that can hold. -/
theorem satisfiable_andDirectives {c c' : Clause} {ds : List DirectiveNode}
    (hc : c.Satisfiable) (h : c.andDirectives ds = some c') : c'.Satisfiable :=
  andDirectives_induct Satisfiable satisfiable_and hc h

theorem subsumes_refl (c : Clause) : c.subsumes c = true :=
  List.all_eq_true.2 fun _ hx => decide_eq_true hx

theorem subsumes_trans {a b c : Clause} (hab : a.subsumes b = true) (hbc : b.subsumes c = true) :
    a.subsumes c = true := by
  refine List.all_eq_true.2 fun x hx => ?_
  exact List.all_eq_true.1 hbc x (of_decide_eq_true (List.all_eq_true.1 hab x hx))

end Clause

namespace IncludeCondition

variable {vars : Variables}

/-! ## Disjunctions -/

@[simp] theorem isIncluded_never : never.isIncluded vars = false := rfl

/-- What `addClause` drops holds only where what it keeps does. -/
theorem isIncluded_addClause (i : IncludeCondition) (c : Clause) :
    (i.addClause c).isIncluded vars = (i.isIncluded vars || c.isSatisfied vars) := by
  cases i with
  | always => rfl
  | anyOf clauses =>
      unfold addClause
      dsimp only
      split
      -- the clause always holds, so the disjunction does
      · rename_i h
        simp [isIncluded, Clause.isSatisfied_of_isAlways h]
      · split
        -- it is not added, since one that is there holds wherever it does
        · rename_i h
          obtain ⟨e, he, hsub⟩ := List.any_eq_true.1 h
          rw [Bool.eq_iff_iff, Bool.or_eq_true]
          refine ⟨Or.inl, fun h => h.elim id fun hc => ?_⟩
          exact List.any_eq_true.2 ⟨e, he, Clause.isSatisfied_of_subsumes hsub hc⟩
        · rw [Bool.eq_iff_iff, Bool.or_eq_true]
          simp only [isIncluded, List.any_append, Bool.or_eq_true, List.any_eq_true,
            List.mem_filter, List.mem_singleton, exists_eq_left]
          constructor
          · rintro (⟨e, ⟨he, _⟩, hsat⟩ | hc)
            · exact Or.inl ⟨e, he, hsat⟩
            · exact Or.inr hc
          -- a clause that was dropped holds only where the new one does
          · rintro (⟨e, he, hsat⟩ | hc)
            · by_cases hsub : c.subsumes e = true
              · exact Or.inr (Clause.isSatisfied_of_subsumes hsub hsat)
              · exact Or.inl ⟨e, ⟨he, by simpa using hsub⟩, hsat⟩
            · exact Or.inr hc

@[simp] theorem isIncluded_ofClause (c : Clause) :
    (ofClause c).isIncluded vars = c.isSatisfied vars := by
  rw [ofClause, isIncluded_addClause, isIncluded_never, Bool.false_or]

/-- A disjunction of clauses holds where one of them does. -/
theorem isIncluded_foldl_addClause (i : IncludeCondition) (cs : List Clause) :
    (cs.foldl addClause i).isIncluded vars = true ↔
      i.isIncluded vars = true ∨ ∃ c ∈ cs, c.isSatisfied vars = true := by
  induction cs generalizing i with
  | nil => simp
  | cons c cs ih =>
      rw [List.foldl_cons, ih, isIncluded_addClause, Bool.or_eq_true, List.exists_mem_cons_iff,
        or_assoc]

/-! ### Clauses that are added again -/

/-- A clause adds nothing where all is included anyway, or where it is subsumed. -/
theorem addClause_eq_self_iff {i : IncludeCondition} {c : Clause} :
    i.addClause c = i ↔ i = always ∨ c.isAlways = false ∧ ∃ e ∈ i.clauses, e.subsumes c = true := by
  cases i with
  | always => exact iff_of_true rfl (Or.inl rfl)
  | anyOf cs =>
      rw [or_iff_right IncludeCondition.noConfusion, addClause, clauses]
      by_cases halways : c.isAlways = true
      · rw [if_pos halways, halways]
        exact iff_of_false IncludeCondition.noConfusion fun h => Bool.noConfusion h.1
      · rw [if_neg halways, Bool.not_eq_true] at *
        rw [and_iff_right halways, ← List.any_eq_true]
        split
        · rename_i hany
          exact iff_of_true rfl hany
        · rename_i hnone
          refine iff_of_false (fun heq => hnone ?_) hnone
          -- otherwise the clause would be there already
          have hmem : c ∈ cs := anyOf.inj heq ▸ List.mem_append_right _ (List.mem_singleton_self c)
          exact List.any_eq_true.2 ⟨c, hmem, c.subsumes_refl⟩

/-- Once added, a clause adds nothing more. -/
theorem addClause_addClause_self (i : IncludeCondition) (c : Clause) :
    (i.addClause c).addClause c = i.addClause c := by
  rw [addClause_eq_self_iff]
  cases i with
  | always => exact Or.inl rfl
  | anyOf cs =>
      rw [addClause]
      split
      · exact Or.inl rfl
      · rename_i halways
        refine Or.inr ⟨Bool.not_eq_true _ ▸ halways, ?_⟩
        split
        · rename_i hany
          exact List.any_eq_true.1 hany
        · exact ⟨c, List.mem_append_right _ (List.mem_singleton_self c), c.subsumes_refl⟩

/-- What adds nothing does not do so later either. -/
theorem addClause_addClause_of_eq {i : IncludeCondition} {c : Clause} (h : i.addClause c = i)
    (d : Clause) : (i.addClause d).addClause c = i.addClause d := by
  rw [addClause_eq_self_iff] at h ⊢
  cases i with
  | always => exact Or.inl rfl
  | anyOf cs =>
      obtain ⟨halways, e, he, hsub⟩ := h.resolve_left IncludeCondition.noConfusion
      rw [addClause]
      split
      · exact Or.inl rfl
      · refine Or.inr ⟨halways, ?_⟩
        split
        · exact ⟨e, he, hsub⟩
        -- the clause that subsumes it stays, or goes for one that subsumes both
        · by_cases hde : d.subsumes e = true
          · exact ⟨d, List.mem_append_right _ (List.mem_singleton_self d),
              Clause.subsumes_trans hde hsub⟩
          · refine ⟨e, List.mem_append_left _ (List.mem_filter.2 ⟨he, ?_⟩), hsub⟩
            simpa using hde

end IncludeCondition

end QueryPlan
