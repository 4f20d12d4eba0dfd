import QueryPlan.Proofs.Plan.Printed
import QueryPlan.Proofs.Plan.Scoped

/-!
# Selection sets with other ids and keys

Where a compilation builds a selection set decides on the ids of its selections and on the keys of
what lies below, and on nothing else. A `Renumbering` pairs the keys of two compilations and says
where their ids begin; a selection set is renumbered if all that differs between the two is paired.
Sets that are renumbered, and below which the same is renumbered again, print the same lines and
are executed alike, whatever the variables are.
-/

set_option autoImplicit false

namespace QueryPlan

/-! ## Renumberings -/

/-- Keys that stand for one another, and the ids that come first on either side. -/
structure Renumbering where
  keys : List (SelectionSetId × SelectionSetId)
  first : Nat
  first' : Nat

namespace Renumbering

variable {r r' r'' : Renumbering}

/-- The keys stand for one another. -/
def Key (r : Renumbering) (k k' : SelectionSetId) : Prop := (k, k') ∈ r.keys

/-- The ids are as far from the first ones on either side. -/
def Id (r : Renumbering) (i i' : Nat) : Prop := ∃ n, i = r.first + n ∧ i' = r.first' + n

/-- No key stands for two others. -/
structure OneToOne (r : Renumbering) : Prop where
  left : (r.keys.map Prod.fst).Nodup
  right : (r.keys.map Prod.snd).Nodup

/-- More keys are paired, and the ids begin where they did. -/
structure Grows (r r' : Renumbering) : Prop where
  keys : r.keys ⊆ r'.keys
  first : r'.first = r.first
  first' : r'.first' = r.first'

/-- One more pair of keys. -/
def cons (r : Renumbering) (k k' : SelectionSetId) : Renumbering :=
  { r with keys := (k, k') :: r.keys }

theorem Grows.refl (r : Renumbering) : r.Grows r := ⟨List.Subset.refl _, rfl, rfl⟩

theorem Grows.trans (h : r.Grows r') (h' : r'.Grows r'') : r.Grows r'' :=
  ⟨List.Subset.trans h.keys h'.keys, h'.first.trans h.first, h'.first'.trans h.first'⟩

theorem grows_cons (r : Renumbering) (k k' : SelectionSetId) : r.Grows (r.cons k k') :=
  ⟨List.subset_cons_self _ _, rfl, rfl⟩

theorem Grows.key (h : r.Grows r') {k k' : SelectionSetId} (hk : r.Key k k') : r'.Key k k' :=
  h.keys hk

theorem Grows.id (h : r.Grows r') {i i' : Nat} (hi : r.Id i i') : r'.Id i i' := by
  unfold Id at hi ⊢
  rwa [h.first, h.first']

/-- The ids that come next are as far from the first ones, too. -/
theorem Id.succ {i i' : Nat} (h : r.Id i i') : r.Id (i + 1) (i' + 1) := by
  obtain ⟨n, rfl, rfl⟩ := h
  exact ⟨n + 1, rfl, rfl⟩

theorem key_cons (r : Renumbering) (k k' : SelectionSetId) : (r.cons k k').Key k k' :=
  List.mem_cons_self

/-- Two pairs share both keys or none. -/
theorem OneToOne.eq_iff (h : r.OneToOne) {k k' j j' : SelectionSetId} (hk : r.Key k k')
    (hj : r.Key j j') : k = j ↔ k' = j' := by
  constructor
  · intro heq
    have hpair : (k, k') = (j, j') := List.inj_on_of_nodup_map h.left hk hj heq
    exact congrArg Prod.snd hpair
  · intro heq
    have hpair : (k, k') = (j, j') := List.inj_on_of_nodup_map h.right hk hj heq
    exact congrArg Prod.fst hpair

end Renumbering

/-! ## What is renumbered -/

/-- The second selection is the first one with another id and another key. -/
structure Selection.Renumbered (r : Renumbering) (s s' : Selection) : Prop where
  draft : s'.toSelectionDraft.keyless = s.toSelectionDraft.keyless
  id : r.Id s.id s'.id
  key : Option.Rel r.Key s.selectionSet s'.selectionSet

mutual

/-- The second selection set is the first one with other ids and keys, in deferred fragments
too. -/
inductive SelectionSet.Renumbered (r : Renumbering) : SelectionSet → SelectionSet → Prop
  | mk {t : ObjectType} {selections selections' : List Selection}
      {deferred deferred' : List (DeferredFragment SelectionSet)} :
      List.Forall₂ (Selection.Renumbered r) selections selections' →
      List.Forall₂ (DeferredRenumbered r) deferred deferred' →
      SelectionSet.Renumbered r ⟨t, selections, deferred⟩ ⟨t, selections', deferred'⟩

inductive DeferredRenumbered (r : Renumbering) :
    DeferredFragment SelectionSet → DeferredFragment SelectionSet → Prop
  | mk {d : DeferredFragment SelectionSet} {set : SelectionSet} :
      SelectionSet.Renumbered r d.selectionSet set → DeferredRenumbered r d (d.withSelections set)

end

/-- What was compiled for a key has other ids and keys. -/
structure SelectionVariants.Renumbered (r : Renumbering) (v v' : SelectionVariants) : Prop where
  id : r.Key v.id v'.id
  sets : List.Forall₂ (fun e e' => e'.1 = e.1 ∧ e.2.Renumbered r e'.2) v.sets.entries
    v'.sets.entries

/-- What was compiled for keys that stand for one another has other ids and keys. -/
def VariantMap.Renumbered (r : Renumbering) (variants variants' : VariantMap) : Prop :=
  ∀ ⦃k k'⦄, r.Key k k' →
    Option.Rel (SelectionVariants.Renumbered r) (variants.get? k) (variants'.get? k')

theorem optionRel_imp {α β : Type} {R S : α → β → Prop} (h : ∀ a b, R a b → S a b) {a : Option α}
    {b : Option β} (hab : Option.Rel R a b) : Option.Rel S a b := by
  cases hab with
  | none => exact .none
  | some hab => exact .some (h _ _ hab)

/-- Options that are related are both empty, or hold values that are. -/
theorem optionRel_iff {α β : Type} {R : α → β → Prop} {a : Option α} {b : Option β} :
    Option.Rel R a b ↔ (a = none ∧ b = none) ∨ ∃ x y, a = some x ∧ b = some y ∧ R x y := by
  constructor
  · intro h
    cases h with
    | none => exact .inl ⟨rfl, rfl⟩
    | some hxy => exact .inr ⟨_, _, rfl, rfl, hxy⟩
  · rintro (⟨rfl, rfl⟩ | ⟨x, y, rfl, rfl, hxy⟩)
    · exact .none
    · exact .some hxy

section Growing

variable {r r' : Renumbering}

theorem Selection.Renumbered.grow {s s' : Selection} (h : s.Renumbered r s') (hr : r.Grows r') :
    s.Renumbered r' s' :=
  ⟨h.draft, hr.id h.id, optionRel_imp (fun _ _ hk => hr.key hk) h.key⟩

theorem SelectionSet.Renumbered.grow {set set' : SelectionSet} (h : set.Renumbered r set')
    (hr : r.Grows r') : set.Renumbered r' set' := by
  induction set using SelectionSet.induct generalizing set' with
  | mk t selections deferred ih =>
      obtain ⟨hselections, hdeferred⟩ := h
      refine .mk (hselections.imp fun _ _ hs => hs.grow hr) ?_
      refine ((List.forall₂_and_left _ _).2 ⟨ih, hdeferred⟩).imp fun d d' h => ?_
      obtain ⟨ihd, ⟨hset⟩⟩ := h
      exact .mk (ihd hset)

theorem DeferredRenumbered.grow {e e' : DeferredFragment SelectionSet}
    (h : DeferredRenumbered r e e') (hr : r.Grows r') : DeferredRenumbered r' e e' := by
  cases h with
  | mk hset => exact .mk (hset.grow hr)

theorem SelectionVariants.Renumbered.grow {v v' : SelectionVariants} (h : v.Renumbered r v')
    (hr : r.Grows r') : v.Renumbered r' v' :=
  ⟨hr.key h.id, h.sets.imp fun _ _ he => ⟨he.1, he.2.grow hr⟩⟩

end Growing

/-! ## What is printed -/

section Printed

variable {r : Renumbering}

/-- Ids and keys are not printed. -/
theorem Selection.Renumbered.head_eq {s s' : Selection} (h : s.Renumbered r s') :
    s'.head = s.head := by
  have hhead (d : SelectionDraft) (id : Nat) :
      Selection.head ⟨d.keyless, id⟩ = Selection.head ⟨d, 0⟩ := rfl
  calc s'.head = Selection.head ⟨s'.toSelectionDraft.keyless, 0⟩ := (hhead _ 0).symm
    _ = Selection.head ⟨s.toSelectionDraft.keyless, 0⟩ := by rw [h.draft]
    _ = s.head := hhead _ 0

theorem Selection.Renumbered.lines_eq {below below' : SelectionSetId → List String}
    {s s' : Selection} (h : s.Renumbered r s')
    (hbelow : ∀ k k', r.Key k k' → below' k' = below k) (depth : Nat) :
    s'.lines below' depth = s.lines below depth := by
  rcases optionRel_iff.1 h.key with ⟨hs, hs'⟩ | ⟨k, k', hs, hs', hk⟩
  · rw [lines_leaf hs, lines_leaf hs', h.head_eq]
  · rw [lines_inner hs, lines_inner hs', h.head_eq, hbelow k k' hk]

/-- Renumbered sets print the same if what is below keys that stand for one another does. -/
theorem SelectionSet.Renumbered.lines_eq {children children' : Nat → SelectionSetId → List String}
    {set set' : SelectionSet} (h : set.Renumbered r set')
    (hchildren : ∀ depth k k', r.Key k k' → children' depth k' = children depth k) (depth : Nat) :
    set'.lines children' depth = set.lines children depth := by
  induction set using SelectionSet.induct generalizing set' depth with
  | mk t selections deferred ih =>
      obtain ⟨hselections, hdeferred⟩ := h
      rw [lines_mk, lines_mk]
      congr 1
      · exact (flatMap_eq_of_forall₂ hselections fun s s' hs =>
          (hs.lines_eq (hchildren (depth + 1)) depth).symm).symm
      · refine (flatMap_eq_of_forall₂ ((List.forall₂_and_left _ _).2 ⟨ih, hdeferred⟩)
          fun d d' h => ?_).symm
        obtain ⟨ihd, ⟨hset⟩⟩ := h
        exact congrArg (block depth d.head) (ihd hset (depth + 1)).symm

end Printed

/-! ## What is executed -/

/-- What is executed of a selection set under some variables, down to some depth: the selections
and the deferred fragments that are included, and below them what is executed there for each
type. -/
def Plan.executed (p : Plan) (vars : Variables) : Nat → SelectionSet → Outline
  | 0, set => .mk set.objectType [] []
  | n + 1, set =>
    .mk set.objectType
      ((set.included vars).map <| Selection.outline (fun _ => false) fun key =>
        (p.variants.get? key).elim [] fun v =>
          v.sets.entries.map fun e => (e.1, p.executed vars n e.2))
      ((set.deferred.filter (·.isIncluded vars)).map fun d =>
        d.withSelections (p.executed vars n d.selectionSet))

section Plans

variable {r : Renumbering} {p p' : Plan}

/-- Below keys that stand for one another the same is printed. -/
theorem Plan.variantLines_eq_of_renumbered (h : VariantMap.Renumbered r p.variants p'.variants)
    (fuel depth : Nat) {k k' : SelectionSetId} (hk : r.Key k k') :
    p'.variantLines fuel depth k' = p.variantLines fuel depth k := by
  induction fuel generalizing depth k k' with
  | zero => rfl
  | succ fuel ih =>
      rw [variantLines, variantLines]
      rcases optionRel_iff.1 (h hk) with ⟨hv, hv'⟩ | ⟨v, v', hv, hv', hrenumbered⟩
      · rw [hv, hv']
      · rw [hv, hv']
        refine (flatMap_eq_of_forall₂ hrenumbered.sets fun e e' he => ?_).symm
        obtain ⟨hname, hset⟩ := he
        have hlines := hset.lines_eq (fun depth k k' hk => ih depth hk) (depth + 1)
        show block depth ("... on " ++ e.1) _ = block depth ("... on " ++ e'.1) _
        rw [hname, hlines]

/-- Renumbered sets print the same lines. -/
theorem SelectionSet.Renumbered.print_eq {set set' : SelectionSet} (h : set.Renumbered r set')
    (hvariants : VariantMap.Renumbered r p.variants p'.variants) (fuel depth : Nat) :
    set'.lines (p'.variantLines fuel) depth = set.lines (p.variantLines fuel) depth :=
  h.lines_eq (fun depth _ _ hk => Plan.variantLines_eq_of_renumbered hvariants fuel depth hk) depth

/-- The same selections are included, renumbered. -/
theorem SelectionSet.Renumbered.included {set set' : SelectionSet} (h : set.Renumbered r set')
    (vars : Variables) :
    List.Forall₂ (Selection.Renumbered r) (set.included vars) (set'.included vars) := by
  obtain ⟨hselections, -⟩ := h
  refine List.rel_filter (fun s s' hs => ?_) hselections
  have hincluded (d : SelectionDraft) : d.keyless.isIncluded vars = d.isIncluded vars := rfl
  show s.toSelectionDraft.isIncluded vars = true ↔ s'.toSelectionDraft.isIncluded vars = true
  rw [← hincluded s.toSelectionDraft, ← hincluded s'.toSelectionDraft, hs.draft]

/-- The same deferred fragments are included, renumbered. -/
theorem rel_deferred_included {deferred deferred' : List (DeferredFragment SelectionSet)}
    (h : List.Forall₂ (DeferredRenumbered r) deferred deferred') (vars : Variables) :
    List.Forall₂ (DeferredRenumbered r) (deferred.filter (·.isIncluded vars))
      (deferred'.filter (·.isIncluded vars)) := by
  refine List.rel_filter (fun d d' hd => ?_) h
  cases hd
  exact Iff.rfl

/-- **Renumbered sets are executed alike**, if what is below them is renumbered as well. -/
theorem SelectionSet.Renumbered.executed_eq {set set' : SelectionSet} (h : set.Renumbered r set')
    (hvariants : VariantMap.Renumbered r p.variants p'.variants) (vars : Variables) (n : Nat) :
    p'.executed vars n set' = p.executed vars n set := by
  induction n generalizing set set' with
  | zero =>
      cases h
      rfl
  | succ n ih =>
      have hincluded := h.included vars
      obtain ⟨-, hdeferred⟩ := h
      rw [Plan.executed, Plan.executed]
      congr 1
      · refine (map_eq_of_forall₂ hincluded fun s s' hs => ?_).symm
        unfold Selection.outline
        rw [hs.draft]
        rcases optionRel_iff.1 hs.key with ⟨hk, hk'⟩ | ⟨k, k', hk, hk', hkeys⟩
        · rw [hk, hk']
          rfl
        · rw [hk, hk', Option.elim_some, Option.elim_some]
          -- below the keys stand the same types, and what stands there is executed alike
          rcases optionRel_iff.1 (hvariants hkeys) with ⟨hv, hv'⟩ | ⟨v, v', hv, hv', hvs⟩
          · rw [hv, hv']
            rfl
          · rw [hv, hv', Option.elim_some, Option.elim_some]
            have hbelow := map_eq_of_forall₂ hvs.sets fun e e' he =>
              show (e.1, p.executed vars n e.2) = (e'.1, p'.executed vars n e'.2) by
                rw [he.1, ih he.2]
            rw [hbelow]
            rfl
      · refine (map_eq_of_forall₂ (rel_deferred_included hdeferred vars) fun d d' hd => ?_).symm
        cases hd with
        | mk hset =>
            show d.withSelections _ = d.withSelections _
            rw [← ih hset]
            rfl

end Plans

end QueryPlan
