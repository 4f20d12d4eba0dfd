import QueryPlan.Proofs.Plan.Calls
import QueryPlan.Proofs.Plan.Mirrored
import QueryPlan.Proofs.Plan.Renumbering

/-!
# States that go abreast

The same part of a compilation may be run from two states that have little in common: other keys
are claimed, other copies were made, other ids given out. From there on the states go abreast
(`CompileState.Abreast`): each key that one side claims is paired with the one that the other side
claims instead, whichever of them is a copy, and what is stored under such keys is renumbered. What
was there before stays out of it. A renumbering only grows on the way, so what was paired once is
paired ever after.
-/

set_option autoImplicit false

namespace QueryPlan

variable {σ α β α' β' : Type} {d : Document}

/-! ## Inserting on both sides -/

/-- Inserting related values under the same key keeps two maps in step. -/
theorem OrderedMap.forall₂_insert {κ : Type} [DecidableEq κ] {R : α → β → Prop}
    {m : OrderedMap κ α} {m' : OrderedMap κ β}
    (h : List.Forall₂ (fun e e' => e'.1 = e.1 ∧ R e.2 e'.2) m.entries m'.entries) (k : κ) {a : α}
    {b : β} (hab : R a b) :
    List.Forall₂ (fun e e' => e'.1 = e.1 ∧ R e.2 e'.2) (m.insert k a).entries
      (m'.insert k b).entries := by
  have hkeys : m'.keys = m.keys :=
    (map_eq_of_forall₂ h fun e e' he => he.1.symm).symm
  have hcontains : m'.contains k = m.contains k := by
    rw [Bool.eq_iff_iff, contains_iff, contains_iff, hkeys]
  rw [entries_insert, entries_insert, hcontains]
  split
  · refine List.forall₂_map_left_iff.2 (List.forall₂_map_right_iff.2 (h.imp ?_))
    rintro e e' ⟨hkey, hvalue⟩
    rw [hkey]
    split
    · exact ⟨rfl, hab⟩
    · exact ⟨hkey, hvalue⟩
  · exact List.rel_append h (.cons ⟨rfl, hab⟩ .nil)

/-! ## States that the compiler can be in -/

namespace CompileState

/-- New ids come after those of the document and after all keys that are claimed, and only claimed
keys have been reached. -/
structure Coherent (d : Document) (s : CompileState σ) : Prop where
  synthetic : d.syntaxArena.nextSelectionSetId.index ≤ s.synthetic.nextSelectionSetId.index
  claimed : ∀ k ∈ s.claimed, k.index < s.synthetic.nextSelectionSetId.index
  reached : s.variants.keys ⊆ s.claimed

variable {s s' : CompileState σ} {k : SelectionSetId}

/-- A state in which every key has an owner is coherent. -/
theorem Owned.coherent {pending loose : List SelectionSetId} (h : s.Owned d pending loose)
    (hle : d.syntaxArena.nextSelectionSetId.index ≤ s.synthetic.nextSelectionSetId.index) :
    s.Coherent d where
  synthetic := hle
  claimed := h.below
  reached := by
    intro k hk
    rw [← List.count_pos_iff, ← h.keys k]
    exact Nat.add_pos_left (List.count_pos_iff.2 hk) _

namespace Coherent

theorem revised (h : s.Coherent d) (hs : s.Revised s') : s'.Coherent d := by
  obtain ⟨_, _, rfl, hgrows⟩ := hs
  exact ⟨h.synthetic.trans hgrows.extends_.sets,
    fun k hk => (h.claimed k hk).trans_le hgrows.extends_.sets, h.reached⟩

/-- One more key is claimed, for which there is room. -/
theorem cons (h : s.Coherent d) {a : SyntaxArena}
    (ha : s.synthetic.nextSelectionSetId.index ≤ a.nextSelectionSetId.index)
    (hk : k.index < a.nextSelectionSetId.index) :
    ({ s with synthetic := a, claimed := k :: s.claimed } : CompileState σ).Coherent d where
  synthetic := h.synthetic.trans ha
  claimed := List.forall_mem_cons.2 ⟨hk, fun j hj => (h.claimed j hj).trans_le ha⟩
  reached := List.Subset.trans h.reached (List.subset_cons_self _ _)

/-- Whether a key of the document is claimed as it is or copied, the key that is taken was free
before, and there is room for it. -/
theorem exists_claim (h : s.Coherent d) {key : SelectionSetId} (hkey : d.Has key) :
    ∃ k a, s.claim d key = (k, { s with synthetic := a, claimed := k :: s.claimed }) ∧
      k ∉ s.claimed ∧
      s.synthetic.nextSelectionSetId.index ≤ a.nextSelectionSetId.index ∧
      k.index < a.nextSelectionSetId.index := by
  obtain ⟨node, hnode⟩ := hkey
  by_cases hclaimed : key ∈ s.claimed
  · have hgrows := (SyntaxArena.Grows.refl s.synthetic).copySelectionSet node
    refine ⟨_, _, claim_of_mem hclaimed hnode, fun hmem => ?_, hgrows.extends_.sets, ?_⟩
    · exact absurd (h.claimed _ hmem) (lt_irrefl _)
    · simp [SyntaxArena.copySelectionSet, SyntaxArena.nextSelectionSetId]
  · have hlt : key.index < d.syntaxArena.nextSelectionSetId.index :=
      SyntaxArena.lt_of_selectionSet? hnode
    exact ⟨_, _, claim_of_notMem hclaimed, hclaimed, le_rfl, hlt.trans_le h.synthetic⟩

theorem reach (h : s.Coherent d) (hk : k ∈ s.claimed) : (s.reach k).Coherent d := by
  by_cases hmem : k ∈ s.variants.keys
  · rwa [reach_of_mem hmem]
  · rw [reach_of_notMem hmem]
    refine ⟨h.synthetic, h.claimed, fun j hj => ?_⟩
    rcases OrderedMap.mem_keys_insert.1 hj with rfl | hj
    · exact hk
    · exact h.reached hj

theorem store (h : s.Coherent d) (k : SelectionSetId) (set : SelectionSet) :
    (s.store k set).Coherent d where
  synthetic := h.synthetic
  claimed := h.claimed
  reached := by
    rw [CompileState.store, OrderedMap.keys_modify]
    exact h.reached

theorem notMem_keys (h : s.Coherent d) (hk : k ∉ s.claimed) : s.variants.get? k = none := by
  rw [Option.eq_none_iff_forall_not_mem]
  intro v hv
  exact hk (h.reached (OrderedMap.mem_keys_iff.2 ⟨v, hv⟩))

end Coherent

end CompileState

/-! ## What is stored on both sides -/

section Stored

variable {r : Renumbering} {k k' : SelectionSetId}

theorem SelectionSet.Renumbered.objectType_eq {set set' : SelectionSet}
    (h : set.Renumbered r set') : set'.objectType = set.objectType := by
  cases h
  rfl

/-- Keys under which nothing stands yet can be paired. -/
theorem VariantMap.Renumbered.cons {variants variants' : VariantMap}
    (h : VariantMap.Renumbered r variants variants') (hk : variants.get? k = none)
    (hk' : variants'.get? k' = none) : VariantMap.Renumbered (r.cons k k') variants variants' := by
  intro j j' hj
  rcases List.mem_cons.1 hj with heq | hj
  · obtain ⟨rfl, rfl⟩ := Prod.mk.inj heq
    rw [hk, hk']
    exact .none
  · exact optionRel_imp (fun _ _ hv => hv.grow (r.grows_cons k k')) (h hj)

/-- Changes under one pair of keys leave what stands under the others. -/
theorem VariantMap.Renumbered.update {variants variants' w w' : VariantMap} (hr : r.OneToOne)
    (h : VariantMap.Renumbered r variants variants') (hk : r.Key k k')
    (hw : ∀ j, j ≠ k → w.get? j = variants.get? j)
    (hw' : ∀ j, j ≠ k' → w'.get? j = variants'.get? j)
    (hself : Option.Rel (SelectionVariants.Renumbered r) (w.get? k) (w'.get? k')) :
    VariantMap.Renumbered r w w' := by
  intro j j' hj
  by_cases hjk : j = k
  · obtain rfl : j' = k' := (hr.eq_iff hj hk).1 hjk
    subst hjk
    exact hself
  · rw [hw j hjk, hw' j' fun heq => hjk ((hr.eq_iff hj hk).2 heq)]
    exact h hj

end Stored

/-! ## States abreast -/

namespace CompileState

/-- The states have come from `s₀` and `t₀` by the same steps: the keys that were claimed since
are paired, and what is stored under them and the next id are renumbered. -/
structure Abreast (d : Document) (s₀ t₀ : CompileState σ) (r : Renumbering)
    (s t : CompileState σ) : Prop where
  coherent : s.Coherent d
  coherent' : t.Coherent d
  claimed : s.claimed = r.keys.map Prod.fst ++ s₀.claimed
  claimed' : t.claimed = r.keys.map Prod.snd ++ t₀.claimed
  oneToOne : r.OneToOne
  fresh : ∀ ⦃k k'⦄, r.Key k k' → k ∉ s₀.claimed ∧ k' ∉ t₀.claimed
  nextId : r.Id s.nextId t.nextId
  variants : VariantMap.Renumbered r s.variants t.variants

variable {s₀ t₀ s t s' t' : CompileState σ} {r : Renumbering} {k k' : SelectionSetId}

/-- Where no key has been claimed yet, all coherent states are abreast. -/
theorem abreast_start (hs : s.Coherent d) (ht : t.Coherent d) :
    Abreast d s t ⟨[], s.nextId, t.nextId⟩ s t where
  coherent := hs
  coherent' := ht
  claimed := rfl
  claimed' := rfl
  oneToOne := ⟨List.nodup_nil, List.nodup_nil⟩
  fresh _ _ hk := absurd hk List.not_mem_nil
  nextId := ⟨0, rfl, rfl⟩
  variants _ _ hk := absurd hk List.not_mem_nil

namespace Abreast

theorem mem_claimed (h : Abreast d s₀ t₀ r s t) (hk : r.Key k k') :
    k ∈ s.claimed ∧ k' ∈ t.claimed := by
  rw [h.claimed, h.claimed']
  exact ⟨List.mem_append_left _ (List.mem_map_of_mem hk),
    List.mem_append_left _ (List.mem_map_of_mem hk)⟩

/-- Taking an id leaves the keys alone. -/
theorem takeId (h : Abreast d s₀ t₀ r s t) :
    Abreast d s₀ t₀ r (CompileInput.takeId s) (CompileInput.takeId t) where
  coherent := ⟨h.coherent.synthetic, h.coherent.claimed, h.coherent.reached⟩
  coherent' := ⟨h.coherent'.synthetic, h.coherent'.claimed, h.coherent'.reached⟩
  claimed := h.claimed
  claimed' := h.claimed'
  oneToOne := h.oneToOne
  fresh := h.fresh
  nextId := h.nextId.succ
  variants := h.variants

theorem revised (h : Abreast d s₀ t₀ r s t) (hs : s.Revised s') (ht : t.Revised t') :
    Abreast d s₀ t₀ r s' t' := by
  have hcoherent := h.coherent.revised hs
  have hcoherent' := h.coherent'.revised ht
  obtain ⟨_, _, rfl, -⟩ := hs
  obtain ⟨_, _, rfl, -⟩ := ht
  exact ⟨hcoherent, hcoherent', h.claimed, h.claimed', h.oneToOne, h.fresh, h.nextId, h.variants⟩

/-- **Claiming a key of the document keeps states abreast**, even if one side takes the key and the
other a copy. -/
theorem claim (h : Abreast d s₀ t₀ r s t) {key : SelectionSetId} (hkey : d.Has key) :
    ∃ r', r.Grows r' ∧ Abreast d s₀ t₀ r' (s.claim d key).2 (t.claim d key).2 ∧
      r'.Key (s.claim d key).1 (t.claim d key).1 := by
  obtain ⟨k, a, hs, hk, ha, hlt⟩ := h.coherent.exists_claim hkey
  obtain ⟨k', b, ht, hk', hb, hlt'⟩ := h.coherent'.exists_claim hkey
  rw [hs, ht]
  have hnew := hk
  have hnew' := hk'
  rw [h.claimed, List.mem_append, not_or] at hnew
  rw [h.claimed', List.mem_append, not_or] at hnew'
  refine ⟨r.cons k k', r.grows_cons k k', ?_, r.key_cons k k'⟩
  refine ⟨h.coherent.cons ha hlt, h.coherent'.cons hb hlt', congrArg (k :: ·) h.claimed,
    congrArg (k' :: ·) h.claimed', ?_, fun j j' hj => ?_, h.nextId, ?_⟩
  · exact ⟨List.nodup_cons.2 ⟨hnew.1, h.oneToOne.left⟩,
      List.nodup_cons.2 ⟨hnew'.1, h.oneToOne.right⟩⟩
  · rcases List.mem_cons.1 hj with heq | hj
    · obtain ⟨rfl, rfl⟩ := Prod.mk.inj heq
      exact ⟨hnew.2, hnew'.2⟩
    · exact h.fresh hj
  · exact h.variants.cons (h.coherent.notMem_keys hk) (h.coherent'.notMem_keys hk')

/-- Keys that are paired have been reached on both sides or on none. -/
theorem mem_keys_iff (h : Abreast d s₀ t₀ r s t) (hk : r.Key k k') :
    k' ∈ t.variants.keys ↔ k ∈ s.variants.keys := by
  rw [OrderedMap.mem_keys_iff, OrderedMap.mem_keys_iff]
  rcases optionRel_iff.1 (h.variants hk) with ⟨hv, hv'⟩ | ⟨v, v', hv, hv', -⟩
  · simp [hv, hv']
  · simp [hv, hv']

theorem reach (h : Abreast d s₀ t₀ r s t) (hk : r.Key k k') :
    Abreast d s₀ t₀ r (s.reach k) (t.reach k') := by
  obtain ⟨hclaimed, hclaimed'⟩ := h.mem_claimed hk
  have hcoherent := h.coherent.reach hclaimed
  have hcoherent' := h.coherent'.reach hclaimed'
  by_cases hmem : k ∈ s.variants.keys
  · rw [reach_of_mem hmem, reach_of_mem ((h.mem_keys_iff hk).2 hmem)]
    exact h
  · have hmem' : k' ∉ t.variants.keys := fun hm => hmem ((h.mem_keys_iff hk).1 hm)
    rw [reach_of_notMem hmem] at hcoherent ⊢
    rw [reach_of_notMem hmem'] at hcoherent' ⊢
    refine ⟨hcoherent, hcoherent', h.claimed, h.claimed', h.oneToOne, h.fresh, h.nextId, ?_⟩
    refine h.variants.update h.oneToOne hk (fun j hj => OrderedMap.get?_insert_of_ne _ _ hj)
      (fun j hj => OrderedMap.get?_insert_of_ne _ _ hj) ?_
    rw [OrderedMap.get?_insert_self, OrderedMap.get?_insert_self]
    exact .some ⟨hk, .nil⟩

/-- Sets that are renumbered are stored under keys that are paired. -/
theorem store (h : Abreast d s₀ t₀ r s t) (hk : r.Key k k') {set set' : SelectionSet}
    (hset : set.Renumbered r set') : Abreast d s₀ t₀ r (s.store k set) (t.store k' set') where
  coherent := h.coherent.store k set
  coherent' := h.coherent'.store k' set'
  claimed := h.claimed
  claimed' := h.claimed'
  oneToOne := h.oneToOne
  fresh := h.fresh
  nextId := h.nextId
  variants := by
    refine h.variants.update h.oneToOne hk (fun j hj => get?_store_of_ne set hj)
      (fun j hj => get?_store_of_ne set' hj) ?_
    rcases optionRel_iff.1 (h.variants hk) with ⟨hv, hv'⟩ | ⟨v, v', hv, hv', hrenumbered⟩
    · rw [CompileState.store, CompileState.store, OrderedMap.get?_modify_self,
        OrderedMap.get?_modify_self, hv, hv']
      exact .none
    · rw [get?_store_self set hv, get?_store_self set' hv', hset.objectType_eq]
      exact .some ⟨hrenumbered.id, OrderedMap.forall₂_insert hrenumbered.sets _ hset⟩

end Abreast

end CompileState

/-! ## Computations abreast -/

open CompileState (Abreast)

/-- From states that are abreast both computations fail with the same error, or come to such states
again, where more may be paired, with results that correspond. -/
def RunsAbreast (d : Document) (s₀ t₀ : CompileState σ) (r : Renumbering)
    (Q : Renumbering → α → β → Prop) (x : CompileM σ α) (y : CompileM σ β) : Prop :=
  ∀ ⦃s t⦄, Abreast d s₀ t₀ r s t →
    Together (fun a s' b t' => ∃ r', r.Grows r' ∧ Abreast d s₀ t₀ r' s' t' ∧ Q r' a b) x y s t

section Steps

variable {s₀ t₀ : CompileState σ} {r : Renumbering} {Q : Renumbering → α → β → Prop}
  {Q' : Renumbering → α' → β' → Prop} {x : CompileM σ α} {y : CompileM σ β}

theorem runsAbreast_pure {a : α} {b : β} (h : Q r a b) :
    RunsAbreast d s₀ t₀ r Q (pure a) (pure b) :=
  fun _ _ habreast => together_pure ⟨r, .refl r, habreast, h⟩

/-- The second steps have only to run abreast wherever the first ones have led, with results that
correspond. -/
theorem RunsAbreast.bind {f : α → CompileM σ α'} {g : β → CompileM σ β'}
    (h : RunsAbreast d s₀ t₀ r Q x y)
    (hfg : ∀ r' a b, r.Grows r' → Q r' a b → RunsAbreast d s₀ t₀ r' Q' (f a) (g b)) :
    RunsAbreast d s₀ t₀ r Q' (x >>= f) (y >>= g) := by
  intro s t habreast
  refine (h habreast).bind fun a s' b t' ⟨r', hgrows, habreast', hab⟩ => ?_
  refine (hfg r' a b hgrows hab habreast').mono fun _ _ _ _ _ ⟨r'', hgrows', hrest⟩ => ?_
  exact ⟨r'', hgrows.trans hgrows', hrest⟩

/-- Of the results it may also be used what is known of the one on the left. -/
theorem RunsAbreast.and_left {P : α → Prop} (h : RunsAbreast d s₀ t₀ r Q x y)
    (hP : ∀ {s a s'}, Runs x s a s' → P a) :
    RunsAbreast d s₀ t₀ r (fun r a b => Q r a b ∧ P a) x y := by
  intro s t habreast
  refine (h habreast).mono fun a s' b t' hruns ⟨r', hgrows, habreast', hab⟩ => ?_
  exact ⟨r', hgrows, habreast', hab, hP hruns⟩

theorem runsAbreast_modify {f g : CompileState σ → CompileState σ}
    (h : ∀ ⦃s t⦄, Abreast d s₀ t₀ r s t → Abreast d s₀ t₀ r (f s) (g t)) :
    RunsAbreast d s₀ t₀ r (fun _ _ _ => True) (modify f) (modify g) :=
  fun _ _ habreast => together_of_runs ((runs_modify (u := ⟨⟩)).2 rfl)
    ((runs_modify (u := ⟨⟩)).2 rfl) ⟨r, .refl r, h habreast, trivial⟩

theorem runsAbreast_get :
    RunsAbreast d s₀ t₀ r (fun _ _ _ => True) (get : CompileM σ _) (get : CompileM σ _) :=
  fun _ _ habreast => together_of_runs (runs_get.2 ⟨rfl, rfl⟩) (runs_get.2 ⟨rfl, rfl⟩)
    ⟨r, .refl r, habreast, trivial⟩

/-- The same is done on both sides for items that go in step, one after another. -/
theorem runsAbreast_forM {R : α → β → Prop} {xs : List α} {ys : List β} {f : α → CompileM σ PUnit}
    {g : β → CompileM σ PUnit} (h : List.Forall₂ R xs ys)
    (hfg : ∀ r' x y, r.Grows r' → R x y →
      RunsAbreast d s₀ t₀ r' (fun _ _ _ => True) (f x) (g y)) :
    RunsAbreast d s₀ t₀ r (fun _ _ _ => True) (xs.forM f) (ys.forM g) := by
  induction h generalizing r with
  | nil => exact runsAbreast_pure trivial
  | @cons x y xs ys hxy _ ih =>
      refine (hfg r x y (.refl r) hxy).bind fun r' _ _ hgrows _ => ?_
      exact ih fun r'' x y hgrows' hxy => hfg r'' x y (hgrows.trans hgrows') hxy

/-- Both sides give out ids that are as far from the first ones. -/
theorem runsAbreast_takeId :
    RunsAbreast d s₀ t₀ r (fun r i i' => r.Id i i')
      (modifyGet fun s => (s.nextId, { s with nextId := s.nextId + 1 }))
      (modifyGet fun t => (t.nextId, { t with nextId := t.nextId + 1 })) :=
  fun _ _ habreast => together_of_runs (runs_modifyGet.2 ⟨rfl, rfl⟩) (runs_modifyGet.2 ⟨rfl, rfl⟩)
    ⟨r, .refl r, habreast.takeId, habreast.nextId⟩

/-- Where both sides ask for the same key of the document, they get keys that are paired. -/
theorem runsAbreast_claim {key : SelectionSetId} (hkey : d.Has key) :
    RunsAbreast d s₀ t₀ r (fun r k k' => r.Key k k') (modifyGet fun s => s.claim d key)
      (modifyGet fun t => t.claim d key) := by
  intro s t habreast
  obtain ⟨r', hgrows, habreast', hk⟩ := habreast.claim hkey
  exact together_of_runs (runs_modifyGet.2 ⟨rfl, rfl⟩) (runs_modifyGet.2 ⟨rfl, rfl⟩)
    ⟨r', hgrows, habreast', hk⟩

end Steps

end QueryPlan
