import Mathlib.Data.Prod.Lex
import Mathlib.Data.String.Basic
import QueryPlan.Proofs.Plan.Condition

/-!
# Clauses are canonical

The conditions of a clause that was built up by `and` are strictly increasing, and none of them is
the opposite of another one (`Canonical`). Such a clause can be told from its meaning: a condition
that it does not ask for can be violated while it holds. So clauses are equal where they are
satisfied alike, one subsumes another exactly where it is implied by it, and the order in which
conditions or directives are added to a clause decides nothing.
-/

set_option autoImplicit false

namespace QueryPlan

/-! ## The order of conditions -/

namespace Condition

variable {a b c : Condition}

/-- What conditions are ordered by. -/
def key (x : Condition) : Bool ×ₗ String := toLex (x.negated, x.var)

theorem key_injective : Function.Injective key := by
  intro x y h
  cases x
  cases y
  cases h
  rfl

theorem lt_iff : a.lt b = true ↔ a.key < b.key := by
  rw [key, key, Prod.Lex.toLex_lt_toLex, lt]
  cases a.negated <;> cases b.negated <;> simp

/-- The opposite test of the same variable. -/
def opposite (x : Condition) : Condition := ⟨!x.negated, x.var⟩

@[simp] theorem opposite_opposite (x : Condition) : x.opposite.opposite = x := by
  simp [opposite]

theorem isSatisfied_opposite (x : Condition) (vars : Variables) :
    x.opposite.isSatisfied vars = !x.isSatisfied vars := by
  simp only [isSatisfied, opposite]
  cases (vars x.var).getD false <;> cases x.negated <;> rfl

instance : Std.Irrefl fun a b : Condition => a.lt b = true :=
  ⟨fun _ h => lt_irrefl _ (lt_iff.1 h)⟩

instance : Std.Antisymm fun a b : Condition => a.lt b = true :=
  ⟨fun _ _ h h' => absurd (lt_iff.1 h') (lt_iff.1 h).asymm⟩

end Condition

namespace Clause

variable {c c' : Clause} {x : Condition} {xs ys : List Condition} {vars : Variables}

/-! ## Adding conditions -/

/-- The clause of some conditions, added in turn; none if two of them are opposite. -/
def ofConditions (xs : List Condition) : Option Clause := xs.foldlM and always

theorem contradicts_iff : c.contradicts x = true ↔ x.opposite ∈ c.conditions := by
  simp only [contradicts, List.any_eq_true, Bool.and_eq_true, decide_eq_true_eq, bne_iff_ne]
  constructor
  · rintro ⟨y, hy, hvar, hneg⟩
    have heq : y = x.opposite := by
      cases y
      simp_all [Condition.opposite, Bool.eq_not]
    exact heq ▸ hy
  · intro h
    exact ⟨_, h, rfl, by simp [Condition.opposite]⟩

/-- A condition is refused where its opposite is asked for, and there otherwise. -/
theorem and_eq_some_iff : c.and x = some c' ↔
    x.opposite ∉ c.conditions ∧ c' = ⟨insertSorted x c.conditions⟩ := by
  rw [Clause.and, ← contradicts_iff]
  split
  · rename_i h
    simp [h]
  · rename_i h
    simp [h, eq_comm]

theorem mem_of_and (h : c.and x = some c') {y : Condition} :
    y ∈ c'.conditions ↔ y = x ∨ y ∈ c.conditions := by
  obtain ⟨-, rfl⟩ := and_eq_some_iff.1 h
  exact mem_insertSorted

/-- What all conditions together make of a clause, as long as none is refused. -/
theorem mem_of_foldlM_and (h : xs.foldlM and c = some c') {y : Condition} :
    y ∈ c'.conditions ↔ y ∈ c.conditions ∨ y ∈ xs := by
  induction xs generalizing c with
  | nil =>
      cases h
      simp
  | cons x xs ih =>
      rw [List.foldlM_cons, Option.bind_eq_bind, Option.bind_eq_some_iff] at h
      obtain ⟨c₁, hx, hxs⟩ := h
      rw [ih hxs, mem_of_and hx, List.mem_cons, or_comm (a := y = x), or_assoc]

theorem mem_of_ofConditions (h : ofConditions xs = some c) {y : Condition} :
    y ∈ c.conditions ↔ y ∈ xs := by
  rw [mem_of_foldlM_and h, always]
  simp

/-! ## The invariant -/

/-- The conditions are strictly increasing, and none is the opposite of another one. -/
structure Canonical (c : Clause) : Prop where
  sorted : c.conditions.Pairwise fun x y => x.lt y = true
  consistent : ∀ x ∈ c.conditions, x.opposite ∉ c.conditions

theorem canonical_always : always.Canonical := ⟨.nil, fun _ h => absurd h List.not_mem_nil⟩

theorem sorted_insertSorted (h : xs.Pairwise fun x y => x.lt y = true) :
    (insertSorted x xs).Pairwise fun x y => x.lt y = true := by
  induction xs with
  | nil => exact List.pairwise_singleton _ _
  | cons y ys ih =>
      obtain ⟨hy, hys⟩ := List.pairwise_cons.1 h
      rw [insertSorted]
      split
      · rename_i hlt
        refine List.pairwise_cons.2 ⟨fun z hz => ?_, h⟩
        rcases List.mem_cons.1 hz with rfl | hz
        · exact hlt
        · exact Condition.lt_iff.2 ((Condition.lt_iff.1 hlt).trans (Condition.lt_iff.1 (hy z hz)))
      · rename_i hnot
        split
        · exact h
        -- the condition belongs behind the first one
        · rename_i hne
          refine List.pairwise_cons.2 ⟨fun z hz => ?_, ih hys⟩
          rcases mem_insertSorted.1 hz with rfl | hz
          · rw [Condition.lt_iff] at hnot ⊢
            exact lt_of_le_of_ne (not_lt.1 hnot) fun heq => hne (Condition.key_injective heq.symm)
          · exact hy z hz

theorem Canonical.and (hc : c.Canonical) (h : c.and x = some c') : c'.Canonical := by
  obtain ⟨hfree, heq⟩ := and_eq_some_iff.1 h
  refine ⟨heq ▸ sorted_insertSorted hc.sorted, fun y hy hopp => ?_⟩
  rw [mem_of_and h] at hy hopp
  rcases hy with rfl | hy
  · rcases hopp with hself | hopp
    · have hneg := congrArg Condition.negated hself
      simp [Condition.opposite] at hneg
    · exact hfree hopp
  · rcases hopp with rfl | hopp
    · exact hfree (by rwa [Condition.opposite_opposite])
    · exact hc.consistent y hy hopp

theorem Canonical.foldlM_and (hc : c.Canonical) (h : xs.foldlM Clause.and c = some c') :
    c'.Canonical :=
  foldlM_induct Canonical (fun _ _ _ _ hc => hc.and) hc h

theorem Canonical.andDirectives {ds : List DirectiveNode} (hc : c.Canonical)
    (h : c.andDirectives ds = some c') : c'.Canonical :=
  andDirectives_induct Canonical Canonical.and hc h

theorem canonical_of_ofConditions (h : ofConditions xs = some c) : c.Canonical :=
  canonical_always.foldlM_and h

/-- Conditions are refused exactly if one of them is the opposite of another one, or of one that
the clause asks for already. -/
theorem Canonical.foldlM_and_eq_none_iff (hc : c.Canonical) :
    xs.foldlM Clause.and c = none ↔ ∃ x ∈ xs, x.opposite ∈ c.conditions ∨ x.opposite ∈ xs := by
  constructor
  · intro h
    induction xs generalizing c with
    | nil => cases h
    | cons x xs ih =>
        rw [List.foldlM_cons, Option.bind_eq_bind, Option.bind_eq_none_iff] at h
        cases hx : c.and x with
        | none =>
            refine ⟨x, List.mem_cons_self, Or.inl ?_⟩
            by_contra hfree
            rw [and_eq_some_iff.2 ⟨hfree, rfl⟩] at hx
            cases hx
        | some c₁ =>
            obtain ⟨y, hy, hopp⟩ := ih (hc.and hx) (h c₁ hx)
            rw [mem_of_and hx, or_comm (a := _ = x), or_assoc, ← List.mem_cons] at hopp
            exact ⟨y, List.mem_cons_of_mem _ hy, hopp⟩
  · rintro ⟨x, hx, hopp⟩
    by_contra hsome
    obtain ⟨c', hc'⟩ := Option.ne_none_iff_exists'.1 hsome
    -- the clause would ask for both
    refine (hc.foldlM_and hc').consistent x ?_ ?_
    · exact (mem_of_foldlM_and hc').2 (Or.inr hx)
    · exact (mem_of_foldlM_and hc').2 hopp

/-! ## What a clause means tells what it is -/

/-- A clause that asks for no opposites holds where every variable is as it asks. -/
theorem Canonical.satisfiable (hc : c.Canonical) : c.Satisfiable := by
  refine ⟨fun v => some (decide (.includeIf v ∈ c.conditions)), isSatisfied_iff.2 fun x hx => ?_⟩
  obtain ⟨negated, v⟩ := x
  cases negated with
  | false =>
      have hmem : Condition.includeIf v ∈ c.conditions := hx
      simp [Condition.isSatisfied, hmem]
  | true =>
      have hfree : Condition.includeIf v ∉ c.conditions := hc.consistent _ hx
      simp [Condition.isSatisfied, hfree]

/-- A condition that a clause does not ask for can be violated while the clause holds. -/
theorem Canonical.exists_violating (hc : c.Canonical) (hx : x ∉ c.conditions) :
    ∃ vars, c.isSatisfied vars = true ∧ x.isSatisfied vars = false := by
  -- the opposite can be asked for besides
  have hand : c.and x.opposite = some ⟨insertSorted x.opposite c.conditions⟩ :=
    and_eq_some_iff.2 ⟨by rwa [Condition.opposite_opposite], rfl⟩
  obtain ⟨vars, hvars⟩ := (hc.and hand).satisfiable
  have hboth : (c.isSatisfied vars && x.opposite.isSatisfied vars) = true := by
    rw [← any_and, hand, Option.any_some, hvars]
  rw [x.isSatisfied_opposite, Bool.and_eq_true, Bool.not_eq_true'] at hboth
  exact ⟨vars, hboth⟩

/-- One clause subsumes another exactly where it is implied by it. -/
theorem Canonical.subsumes_iff (hc' : c'.Canonical) : c.subsumes c' = true ↔
    ∀ vars, c'.isSatisfied vars = true → c.isSatisfied vars = true := by
  refine ⟨fun h vars => isSatisfied_of_subsumes h, fun h => List.all_eq_true.2 fun x hx => ?_⟩
  by_contra hnot
  obtain ⟨vars, hvars, hviolated⟩ := hc'.exists_violating fun hmem => hnot (decide_eq_true hmem)
  have hx := isSatisfied_iff.1 (h vars hvars) x hx
  rw [hviolated] at hx
  cases hx

theorem subsumes_iff_subset : c.subsumes c' = true ↔ c.conditions ⊆ c'.conditions := by
  simp [subsumes, List.subset_def]

/-- Clauses with the same conditions are equal. -/
theorem Canonical.eq_of_mem_iff (hc : c.Canonical) (hc' : c'.Canonical)
    (h : ∀ x, x ∈ c.conditions ↔ x ∈ c'.conditions) : c = c' := by
  cases c
  cases c'
  exact congrArg Clause.mk (hc.sorted.eq_of_mem_iff hc'.sorted h)

theorem Canonical.subsumes_antisymm (hc : c.Canonical) (hc' : c'.Canonical)
    (h : c.subsumes c' = true) (h' : c'.subsumes c = true) : c = c' :=
  hc.eq_of_mem_iff hc' fun _ =>
    ⟨fun hx => subsumes_iff_subset.1 h hx, fun hx => subsumes_iff_subset.1 h' hx⟩

/-- Clauses are equal exactly where they are satisfied alike. -/
theorem Canonical.eq_iff (hc : c.Canonical) (hc' : c'.Canonical) :
    c = c' ↔ ∀ vars, c.isSatisfied vars = c'.isSatisfied vars := by
  refine ⟨fun h _ => h ▸ rfl, fun h => hc.subsumes_antisymm hc' ?_ ?_⟩
  · exact hc'.subsumes_iff.2 fun vars hvars => (h vars).trans hvars
  · exact hc.subsumes_iff.2 fun vars hvars => (h vars).symm.trans hvars

/-- So are clauses that may have been given up, which then never hold. -/
theorem eq_of_any_isSatisfied {o o' : Option Clause} (ho : ∀ c ∈ o, c.Canonical)
    (ho' : ∀ c ∈ o', c.Canonical)
    (h : ∀ vars, o.any (·.isSatisfied vars) = o'.any (·.isSatisfied vars)) : o = o' := by
  have hgiven {c : Clause} (hc : c.Canonical) : ∃ vars, c.isSatisfied vars = true := hc.satisfiable
  cases o with
  | none =>
      cases o' with
      | none => rfl
      | some c' =>
          obtain ⟨vars, hvars⟩ := hgiven (ho' c' rfl)
          exact absurd ((h vars).trans hvars) Bool.noConfusion
  | some c =>
      cases o' with
      | none =>
          obtain ⟨vars, hvars⟩ := hgiven (ho c rfl)
          exact absurd (hvars.symm.trans (h vars)) Bool.noConfusion
      | some c' => exact congrArg some (((ho c rfl).eq_iff (ho' c' rfl)).2 h)

/-! ## Clauses of conditions -/

theorem any_ofConditions (xs : List Condition) :
    (ofConditions xs).any (·.isSatisfied vars) = xs.all (·.isSatisfied vars) :=
  any_foldlM any_and always xs

/-- Conditions make no clause exactly if some variable is tested both ways. -/
theorem ofConditions_eq_none_iff :
    ofConditions xs = none ↔ ∃ v, Condition.includeIf v ∈ xs ∧ Condition.skipIf v ∈ xs := by
  rw [ofConditions, canonical_always.foldlM_and_eq_none_iff]
  constructor
  · rintro ⟨⟨negated, v⟩, hx, hopp⟩
    have hopp := hopp.resolve_left List.not_mem_nil
    cases negated with
    | false => exact ⟨v, hx, hopp⟩
    | true => exact ⟨v, hopp, hx⟩
  · rintro ⟨v, hinclude, hskip⟩
    exact ⟨_, hinclude, Or.inr hskip⟩

/-- What holds for no variables is given up, and nothing else is. -/
theorem eq_none_iff_any {o : Option Clause} (ho : ∀ c ∈ o, c.Canonical) :
    o = none ↔ ∀ vars, o.any (·.isSatisfied vars) = false :=
  ⟨fun h _ => h ▸ rfl, fun h => eq_of_any_isSatisfied ho (fun _ hc => absurd hc (by simp)) h⟩

/-- **Clauses are canonical.** Conditions are refused exactly if some variable is tested both ways,
which is where they never hold together. Otherwise the clause lists them in strictly increasing
order and holds where all of them do; their order decides nothing, and two clauses are compared
by what they mean. -/
theorem canonical_of_conditions (xs : List Condition) :
    (ofConditions xs = none ↔ ∃ v, Condition.includeIf v ∈ xs ∧ Condition.skipIf v ∈ xs) ∧
    (ofConditions xs = none ↔ ∀ vars, ¬ ∀ x ∈ xs, x.isSatisfied vars = true) ∧
    (∀ c, ofConditions xs = some c →
      c.conditions.Pairwise (fun x y => x.lt y = true) ∧ (∀ x, x ∈ c.conditions ↔ x ∈ xs) ∧
        ∀ vars, c.isSatisfied vars = true ↔ ∀ x ∈ xs, x.isSatisfied vars = true) ∧
    (∀ ys, xs.Perm ys → ofConditions ys = ofConditions xs) ∧
    ∀ ys c c', ofConditions xs = some c → ofConditions ys = some c' →
      (c = c' ↔ ∀ vars, c.isSatisfied vars = c'.isSatisfied vars) ∧
      (c.subsumes c' = true ↔
        ∀ vars, c'.isSatisfied vars = true → c.isSatisfied vars = true) := by
  have hcanonical (ys : List Condition) : ∀ c ∈ ofConditions ys, c.Canonical :=
    fun c hc => canonical_of_ofConditions hc
  refine ⟨ofConditions_eq_none_iff, ?_, fun c hc => ?_, fun ys hperm => ?_,
    fun ys c c' hc hc' => ?_⟩
  · rw [eq_none_iff_any (hcanonical xs)]
    refine forall_congr' fun vars => ?_
    rw [any_ofConditions, ← Bool.not_eq_true, List.all_eq_true]
  · refine ⟨(canonical_of_ofConditions hc).sorted, fun x => mem_of_ofConditions hc, fun vars => ?_⟩
    calc c.isSatisfied vars = true
        ↔ (ofConditions xs).any (·.isSatisfied vars) = true := by rw [hc, Option.any_some]
      _ ↔ ∀ x ∈ xs, x.isSatisfied vars = true := by rw [any_ofConditions, List.all_eq_true]
  · refine eq_of_any_isSatisfied (hcanonical ys) (hcanonical xs) fun vars => ?_
    rw [any_ofConditions, any_ofConditions]
    exact hperm.symm.all_eq
  · exact ⟨(canonical_of_ofConditions hc).eq_iff (canonical_of_ofConditions hc'),
      (canonical_of_ofConditions hc').subsumes_iff⟩

/-! ## Clauses with directives -/

/-- Directives that are read alike make the same of a clause. -/
theorem Canonical.andDirectives_congr {ds ds' : List DirectiveNode} (hc : c.Canonical)
    (h : ∀ vars : Variables, vars.keep ds = vars.keep ds') :
    c.andDirectives ds = c.andDirectives ds' := by
  apply eq_of_any_isSatisfied (fun _ => hc.andDirectives) (fun _ => hc.andDirectives)
  intro vars
  rw [any_andDirectives, any_andDirectives, h vars]

theorem andDirectives_append (c : Clause) (ds ds' : List DirectiveNode) :
    c.andDirectives (ds ++ ds') = (c.andDirectives ds).bind fun c' => c'.andDirectives ds' :=
  List.foldlM_append

/-- **Directives are added exactly, in any order.** A clause that was built up by `and` is given up
for a list of directives exactly if no variables satisfy it and make all directives keep what they
stand on. Otherwise it becomes the clause that is satisfied by just these variables. Permuted
directives give an equal result, and so do directives that are added in two portions. -/
theorem andDirectives_of_conditions {xs : List Condition} {c : Clause}
    (hc : ofConditions xs = some c) (ds : List DirectiveNode) :
    (c.andDirectives ds = none ↔
      ∀ vars : Variables, ¬ (c.isSatisfied vars = true ∧ vars.keep ds = true)) ∧
    (∀ c', c.andDirectives ds = some c' → ∀ vars : Variables,
      c'.isSatisfied vars = true ↔ c.isSatisfied vars = true ∧ vars.keep ds = true) ∧
    (∀ ds', ds.Perm ds' → c.andDirectives ds' = c.andDirectives ds) ∧
    ∀ ds', c.andDirectives (ds ++ ds') =
      (c.andDirectives ds).bind fun c' => c'.andDirectives ds' := by
  have hcanonical := canonical_of_ofConditions hc
  refine ⟨?_, fun c' hc' vars => ?_, fun ds' hperm => ?_, fun ds' => c.andDirectives_append ds ds'⟩
  · rw [eq_none_iff_any fun _ => hcanonical.andDirectives]
    refine forall_congr' fun vars => ?_
    rw [any_andDirectives, ← Bool.not_eq_true, Bool.and_eq_true]
  · calc c'.isSatisfied vars = true
        ↔ (c.andDirectives ds).any (·.isSatisfied vars) = true := by rw [hc', Option.any_some]
      _ ↔ c.isSatisfied vars = true ∧ vars.keep ds = true := by
          rw [any_andDirectives, Bool.and_eq_true]
  · apply hcanonical.andDirectives_congr
    intro vars
    exact hperm.symm.all_eq

/-- Directives that are and are not read; of two `if` arguments the first one is. -/
def mixedDirectives : List DirectiveNode :=
  [⟨"include", [("if", .var "b")], .synthetic⟩,
   ⟨"deprecated", [("if", .boolean false)], .synthetic⟩,
   ⟨"skip", [("unless", .null), ("if", .var "a"), ("if", .boolean true)], .synthetic⟩]

/-- They contradict a condition that is inherited, and leave another one. -/
theorem andDirectives_mixed :
    (∀ vars : Variables, ¬ ((⟨[.includeIf "a"]⟩ : Clause).isSatisfied vars = true ∧
      vars.keep mixedDirectives = true)) ∧
    (⟨[.includeIf "c"]⟩ : Clause).andDirectives mixedDirectives.reverse =
      some ⟨[.includeIf "b", .includeIf "c", .skipIf "a"]⟩ := by
  have ha : ofConditions [.includeIf "a"] = some ⟨[.includeIf "a"]⟩ := by decide
  have hc : ofConditions [.includeIf "c"] = some ⟨[.includeIf "c"]⟩ := by decide
  refine ⟨(andDirectives_of_conditions ha mixedDirectives).1.1 (by decide), ?_⟩
  obtain ⟨-, -, hperm, -⟩ := andDirectives_of_conditions hc mixedDirectives
  rw [hperm _ (List.reverse_perm _).symm]
  decide

end Clause

end QueryPlan
