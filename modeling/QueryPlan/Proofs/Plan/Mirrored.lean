import QueryPlan.Proofs.Plan.Renaming
import QueryPlan.Proofs.Plan.Unrevised
import QueryPlan.Proofs.Together

/-!
# States that mirror one another

Two compilations of one document may put different syntax in, so that the keys of synthetic sets
drift apart. The states that they come to mirror one another (`CompileState.Mirrors`) if the keys
that one has claimed are those that the other has claimed, renamed, and if what is stored is the
same up to that. Everything that a compilation does to its state keeps this, when both do it.

Which renaming it is becomes known only as keys are claimed. What is made on the way is therefore
said to correspond under every renaming of the keys claimed so far, and does so ever after. Two
computations go in lockstep (`Lockstep`) if they fail together, or lead from mirrored states to
later ones.
-/

set_option autoImplicit false

namespace QueryPlan

variable {σ τ α β α' β' : Type} {d : Document}

/-! ## Selection sets in view -/

namespace SyntaxView

variable {document a a' b b' : SyntaxArena} {k k' : SelectionSetId}

theorem selectionSet?_of_document {v : SyntaxView} {node : SelectionSetNode}
    (h : v.document.selectionSet? k = some node) : v.selectionSet? k = some node := by
  rw [selectionSet?, h]
  rfl

/-- A selection set in view stays the same while the synthetic syntax grows. -/
theorem selectionSet?_grow (hab : a.Grows b) {node : SelectionSetNode}
    (h : selectionSet? ⟨document, a⟩ k = some node) :
    selectionSet? ⟨document, b⟩ k = some node := by
  rw [selectionSet?, Option.orElse_eq_orElse, Option.orElse_eq_or] at h ⊢
  rcases Option.or_eq_some_iff.1 h with hd | ⟨hnone, hsynthetic⟩
  · exact Option.or_eq_some_iff.2 (.inl hd)
  · exact Option.or_eq_some_iff.2 (.inr ⟨hnone, hab.extends_.selectionSet hsynthetic⟩)

theorem SameSet.grow (h : SameSet ⟨document, a⟩ ⟨document, a'⟩ k k') (hab : a.Grows b)
    (hab' : a'.Grows b') : SameSet ⟨document, b⟩ ⟨document, b'⟩ k k' := by
  obtain ⟨node, node', hnode, hnode', hsame⟩ := h
  exact ⟨node, node', selectionSet?_grow hab hnode, selectionSet?_grow hab' hnode', hsame⟩

/-- What is in view comes before the next synthetic set. -/
theorem lt_of_selectionSet? {v : SyntaxView} {node : SelectionSetNode}
    (hbase : v.synthetic.bases.selectionSets = v.document.nextSelectionSetId.index)
    (h : v.selectionSet? k = some node) : k.index < v.synthetic.nextSelectionSetId.index := by
  rw [selectionSet?, Option.orElse_eq_orElse, Option.orElse_eq_or] at h
  rcases Option.or_eq_some_iff.1 h with hdocument | ⟨-, hsynthetic⟩
  · have hlt := SyntaxArena.lt_of_selectionSet? hdocument
    rw [← hbase] at hlt
    exact hlt.trans_le (Nat.le_add_right _ _)
  · exact SyntaxArena.lt_of_selectionSet? hsynthetic

end SyntaxView

/-! ## Mirrored states -/

namespace CompileState

/-- The renaming takes the keys that one state has claimed to those that the other has. -/
def Renames (f : SelectionSetId → SelectionSetId) (s : CompileState σ) (t : CompileState τ) :
    Prop :=
  t.claimed = s.claimed.map f

/-- The second state is the first one with other keys. -/
structure Mirrors (d : Document) (s : CompileState σ) (t : CompileState τ) : Prop where
  nextId : t.nextId = s.nextId
  base : s.synthetic.bases.selectionSets = d.syntaxArena.nextSelectionSetId.index
  base' : t.synthetic.bases.selectionSets = d.syntaxArena.nextSelectionSetId.index
  claimed : ∃ f, Renames f s t ∧ KeyRenaming d s.claimed f ∧
    ∀ k ∈ s.claimed, (s.view d).SameSet (t.view d) k (f k)
  keys : s.variants.keys ⊆ s.claimed
  variants : ∀ f, Renames f s t →
    t.variants.entries = s.variants.entries.map (Prod.map f (SelectionVariants.rename f))

/-- More keys are claimed in a later pair of states, and those from before are paired as before. -/
structure Later (s : CompileState σ) (t : CompileState τ) (s' : CompileState σ)
    (t' : CompileState τ) : Prop where
  claimed : s.claimed ⊆ s'.claimed
  renames : ∀ f, Renames f s' t' → Renames f s t

/-- The first key is claimed, and all renamings take it to the second one. -/
structure Pairs (s : CompileState σ) (t : CompileState τ) (k k' : SelectionSetId) : Prop where
  claimed : k ∈ s.claimed
  renames : ∀ f, Renames f s t → k' = f k

/-- All renamings take the first selection set to the second one. -/
def PairsSets (s : CompileState σ) (t : CompileState τ) (set set' : SelectionSet) : Prop :=
  ∀ f, Renames f s t → set' = set.rename f

variable {s s' s'' : CompileState σ} {t t' t'' : CompileState τ} {k k' : SelectionSetId}
  {set set' : SelectionSet} {f g : SelectionSetId → SelectionSetId}

theorem Later.refl (s : CompileState σ) (t : CompileState τ) : Later s t s t :=
  ⟨List.Subset.refl _, fun _ => id⟩

theorem Later.trans (h : Later s t s' t') (h' : Later s' t' s'' t'') : Later s t s'' t'' :=
  ⟨List.Subset.trans h.claimed h'.claimed, fun f hf => h.renames f (h'.renames f hf)⟩

/-- Nothing was claimed in between. -/
theorem Later.of_claimed_eq (h : s'.claimed = s.claimed) (h' : t'.claimed = t.claimed) :
    Later s t s' t' := by
  refine ⟨fun k hk => h ▸ hk, fun f hf => ?_⟩
  unfold Renames at hf ⊢
  rw [← h, ← h', hf]

theorem Later.of_cons (h : s'.claimed = k :: s.claimed) (h' : t'.claimed = k' :: t.claimed) :
    Later s t s' t' := by
  refine ⟨fun j hj => h ▸ List.mem_cons_of_mem _ hj, fun f hf => ?_⟩
  unfold Renames at hf ⊢
  rw [h, h', List.map_cons, List.cons.injEq] at hf
  exact hf.2

theorem Pairs.of_cons (h : s'.claimed = k :: s.claimed) (h' : t'.claimed = k' :: t.claimed) :
    Pairs s' t' k k' := by
  refine ⟨h ▸ List.mem_cons_self, fun f hf => ?_⟩
  unfold Renames at hf
  rw [h, h', List.map_cons, List.cons.injEq] at hf
  exact hf.1

theorem Pairs.later (h : Pairs s t k k') (hlater : Later s t s' t') : Pairs s' t' k k' :=
  ⟨hlater.claimed h.claimed, fun f hf => h.renames f (hlater.renames f hf)⟩

theorem claimed_reach (s : CompileState σ) (key : SelectionSetId) :
    (s.reach key).claimed = s.claimed := by
  unfold CompileState.reach
  split <;> rfl

theorem claim_of_mem {key : SelectionSetId} {node : SelectionSetNode} (hkey : key ∈ s.claimed)
    (hnode : d.syntaxArena.selectionSet? key = some node) :
    s.claim d key = (s.synthetic.nextSelectionSetId,
      { s with
        synthetic := (s.synthetic.copySelectionSet node).2
        claimed := s.synthetic.nextSelectionSetId :: s.claimed }) := by
  have hview : (s.view d).selectionSet? key = some node :=
    SyntaxView.selectionSet?_of_document hnode
  rw [claim, if_pos hkey, hview]
  rfl

theorem claim_of_notMem {key : SelectionSetId} (hkey : key ∉ s.claimed) :
    s.claim d key = (key, { s with claimed := key :: s.claimed }) :=
  if_neg hkey

/-- The copy of a selection set is in view under its new id. -/
theorem selectionSet?_copy {a : SyntaxArena}
    (hle : d.syntaxArena.nextSelectionSetId.index ≤ a.nextSelectionSetId.index)
    (node : SelectionSetNode) :
    SyntaxView.selectionSet? ⟨d.syntaxArena, (a.copySelectionSet node).2⟩ a.nextSelectionSetId =
      some { node with id := a.nextSelectionSetId } := by
  have hnone : d.syntaxArena.selectionSet? a.nextSelectionSetId = none := by
    rw [Option.eq_none_iff_forall_not_mem]
    intro other hother
    exact absurd (SyntaxArena.lt_of_selectionSet? hother) (Nat.not_lt_of_le hle)
  rw [SyntaxView.selectionSet?, hnone, SyntaxArena.selectionSet?_copySelectionSet, if_pos rfl]
  rfl

namespace Mirrors

/-- The next synthetic set comes after all sets of the document. -/
theorem le_nextSelectionSetId (h : s.Mirrors d t) :
    d.syntaxArena.nextSelectionSetId.index ≤ s.synthetic.nextSelectionSetId.index :=
  h.base ▸ Nat.le_add_right _ _

theorem le_nextSelectionSetId' (h : s.Mirrors d t) :
    d.syntaxArena.nextSelectionSetId.index ≤ t.synthetic.nextSelectionSetId.index :=
  h.base' ▸ Nat.le_add_right _ _

/-- No renaming makes one key out of two. -/
theorem eq_of_eq (h : s.Mirrors d t) (hg : Renames g s t) {j : SelectionSetId} (hk : k ∈ s.claimed)
    (hj : j ∈ s.claimed) (heq : g k = g j) : k = j := by
  obtain ⟨f, hf, hkeys, -⟩ := h.claimed
  have hagree : ∀ i ∈ s.claimed, g i = f i := List.map_inj_left.1 (hg.symm.trans hf)
  rw [hagree k hk, hagree j hj] at heq
  exact hkeys.eq_of_eq hk hj heq

/-- Taking an id leaves the keys alone. -/
theorem takeId (h : s.Mirrors d t) :
    (CompileInput.takeId s).Mirrors d (CompileInput.takeId t) where
  nextId := congrArg (· + 1) h.nextId
  base := h.base
  base' := h.base'
  claimed := h.claimed
  keys := h.keys
  variants := h.variants

/-- More syntax may be put in, on either side. -/
theorem revised (h : s.Mirrors d t) (hs : s.Revised s') (ht : t.Revised t') : s'.Mirrors d t' := by
  obtain ⟨memory, synthetic, rfl, hgrows⟩ := hs
  obtain ⟨memory', synthetic', rfl, hgrows'⟩ := ht
  obtain ⟨f, hf, hkeys, hsame⟩ := h.claimed
  refine ⟨h.nextId, ?_, ?_, ⟨f, hf, hkeys, fun k hk => (hsame k hk).grow hgrows hgrows'⟩, h.keys,
    h.variants⟩
  · show synthetic.bases.selectionSets = _
    rw [hgrows.extends_.bases, h.base]
  · show synthetic'.bases.selectionSets = _
    rw [hgrows'.extends_.bases, h.base']

/-! ### Claiming -/

/-- One more key is claimed on either side, when some renaming goes with it. -/
theorem cons (h : s.Mirrors d t) {a b : SyntaxArena} (hs : s.synthetic.Grows a)
    (ht : t.synthetic.Grows b) (hf : KeyRenaming d (k :: s.claimed) f)
    (hold : s.claimed.map f = t.claimed) (hnew : f k = k')
    (hsame : ∀ j ∈ k :: s.claimed,
      SyntaxView.SameSet ⟨d.syntaxArena, a⟩ ⟨d.syntaxArena, b⟩ j (f j)) :
    ({ s with synthetic := a, claimed := k :: s.claimed } : CompileState σ).Mirrors d
      { t with synthetic := b, claimed := k' :: t.claimed } where
  nextId := h.nextId
  base := hs.extends_.bases ▸ h.base
  base' := ht.extends_.bases ▸ h.base'
  claimed := by
    refine ⟨f, ?_, hf, hsame⟩
    show k' :: t.claimed = (k :: s.claimed).map f
    rw [List.map_cons, hold, hnew]
  keys := List.Subset.trans h.keys (List.subset_cons_self _ _)
  variants g hg := h.variants g (List.cons.inj hg).2

/-- **Claiming a key of the document keeps states mirrored**: both sides take it as it is, or both
take a copy of what stands under it. -/
theorem claim (h : s.Mirrors d t) {key : SelectionSetId} (hkey : d.Has key) :
    (s.claim d key).2.Mirrors d (t.claim d key).2 ∧
      Later s t (s.claim d key).2 (t.claim d key).2 ∧
      Pairs (s.claim d key).2 (t.claim d key).2 (s.claim d key).1 (t.claim d key).1 := by
  obtain ⟨f, hf, hkeys, hsame⟩ := h.claimed
  obtain ⟨node, hnode⟩ := hkey
  have hlt : key.index < d.syntaxArena.nextSelectionSetId.index :=
    SyntaxArena.lt_of_selectionSet? hnode
  have hmem : key ∈ t.claimed ↔ key ∈ s.claimed := by
    rw [show t.claimed = s.claimed.map f from hf]
    exact hkeys.mem_map_iff hlt
  by_cases hclaimed : key ∈ s.claimed
  · rw [claim_of_mem hclaimed hnode, claim_of_mem (hmem.2 hclaimed) hnode]
    refine ⟨?_, .of_cons rfl rfl, .of_cons rfl rfl⟩
    -- the copies come after all that is in view on either side
    have hlast : ∀ j ∈ s.claimed, j.index < s.synthetic.nextSelectionSetId.index ∧
        (f j).index < t.synthetic.nextSelectionSetId.index := by
      intro j hj
      obtain ⟨_, _, hs, ht, -⟩ := hsame j hj
      exact ⟨SyntaxView.lt_of_selectionSet? h.base hs, SyntaxView.lt_of_selectionSet? h.base' ht⟩
    have hold : ∀ j ∈ s.claimed, Function.update f s.synthetic.nextSelectionSetId
        t.synthetic.nextSelectionSetId j = f j := by
      intro j hj
      refine Function.update_of_ne (fun hfresh => ?_) _ _
      exact absurd (hlast j hj).1 (hfresh ▸ lt_irrefl _)
    have hgrows (a : SyntaxArena) := (SyntaxArena.Grows.refl a).copySelectionSet node
    refine h.cons (hgrows _) (hgrows _)
      (hkeys.cons_synthetic h.le_nextSelectionSetId h.le_nextSelectionSetId' hlast) ?_
      (Function.update_self _ _ _) ?_
    · rw [List.map_congr_left hold]
      exact hf.symm
    · refine List.forall_mem_cons.2 ⟨?_, fun j hj => ?_⟩
      · rw [Function.update_self]
        exact ⟨_, _, selectionSet?_copy h.le_nextSelectionSetId node,
          selectionSet?_copy h.le_nextSelectionSetId' node, rfl, rfl⟩
      · rw [hold j hj]
        exact (hsame j hj).grow (hgrows _) (hgrows _)
  · rw [claim_of_notMem hclaimed, claim_of_notMem fun hm => hclaimed (hmem.1 hm)]
    refine ⟨?_, .of_cons rfl rfl, .of_cons rfl rfl⟩
    have hfixed : f key = key := hkeys.document key hlt
    refine h.cons (.refl _) (.refl _) (hkeys.cons_document hlt) hf.symm hfixed
      (List.forall_mem_cons.2 ⟨?_, hsame⟩)
    rw [hfixed]
    exact ⟨node, node, SyntaxView.selectionSet?_of_document hnode,
      SyntaxView.selectionSet?_of_document hnode, rfl, rfl⟩

/-! ### Storing -/

theorem keys_eq (h : s.Mirrors d t) (hf : Renames f s t) :
    t.variants.keys = s.variants.keys.map f := by
  rw [OrderedMap.keys, h.variants f hf, OrderedMap.keys, List.map_map, List.map_map]
  rfl

/-- Keys that are paired have been reached on both sides or on none. -/
theorem mem_keys_iff (h : s.Mirrors d t) (hk : Pairs s t k k') :
    k' ∈ t.variants.keys ↔ k ∈ s.variants.keys := by
  obtain ⟨f, hf, -⟩ := h.claimed
  rw [h.keys_eq hf, hk.renames f hf, List.mem_map]
  constructor
  · rintro ⟨j, hj, heq⟩
    rwa [← h.eq_of_eq hf (h.keys hj) hk.claimed heq]
  · exact fun hmem => ⟨k, hmem, rfl⟩

theorem reach (h : s.Mirrors d t) (hk : Pairs s t k k') : (s.reach k).Mirrors d (t.reach k') := by
  by_cases hmem : k ∈ s.variants.keys
  · rw [reach_of_mem hmem, reach_of_mem ((h.mem_keys_iff hk).2 hmem)]
    exact h
  · have hmem' : k' ∉ t.variants.keys := fun hm => hmem ((h.mem_keys_iff hk).1 hm)
    rw [reach_of_notMem hmem, reach_of_notMem hmem']
    refine ⟨h.nextId, h.base, h.base', h.claimed, fun j hj => ?_, fun f hf => ?_⟩
    · rcases OrderedMap.mem_keys_insert.1 hj with rfl | hj
      · exact hk.claimed
      · exact h.keys hj
    · show (t.variants.insert k' ⟨k', .empty⟩).entries =
        (s.variants.insert k ⟨k, .empty⟩).entries.map _
      rw [OrderedMap.entries_insert_of_notMem _ hmem, OrderedMap.entries_insert_of_notMem _ hmem',
        h.variants f hf, List.map_append, hk.renames f hf]
      rfl

/-- Selection sets that are paired are stored under keys that are paired. -/
theorem store (h : s.Mirrors d t) (hk : Pairs s t k k') (hset : PairsSets s t set set') :
    (s.store k set).Mirrors d (t.store k' set') where
  nextId := h.nextId
  base := h.base
  base' := h.base'
  claimed := h.claimed
  keys := by
    rw [CompileState.store, OrderedMap.keys_modify]
    exact h.keys
  variants f hf := by
    have hf : Renames f s t := hf
    obtain rfl := hset f hf
    obtain rfl := hk.renames f hf
    simp only [CompileState.store, OrderedMap.modify]
    rw [h.variants f hf, List.map_map, List.map_map]
    refine List.map_congr_left fun e he => ?_
    have hmem : e.1 ∈ s.claimed := h.keys (List.mem_map_of_mem he)
    -- the entry at the key is that at the renamed key
    by_cases hkey : e.1 = k
    · simp only [Function.comp_apply, Prod.map_fst, Prod.map_snd, hkey, if_true,
        SelectionSet.objectType_rename, Prod.map_apply]
      rw [SelectionVariants.rename, SelectionVariants.rename, OrderedMap.mapValues_insert]
    · have hne : f e.1 ≠ f k := fun heq => hkey (h.eq_of_eq hf hmem hk.claimed heq)
      simp only [Function.comp_apply, Prod.map_fst, if_neg hkey, if_neg hne]

end Mirrors

end CompileState

/-! ## Steps of two compilations -/

/-- From states that mirror one another both computations fail with the same error, or come to
such states again, which are later and in which the results correspond. -/
def Lockstep (d : Document) (Q : CompileState σ → CompileState τ → α → β → Prop)
    (x : CompileM σ α) (y : CompileM τ β) (s : CompileState σ) (t : CompileState τ) : Prop :=
  s.Mirrors d t →
    Together (fun a s' b t' => s'.Mirrors d t' ∧ CompileState.Later s t s' t' ∧ Q s' t' a b) x y s t

section Steps

open CompileState (Later Pairs)

variable {Q : CompileState σ → CompileState τ → α → β → Prop}
  {Q' : CompileState σ → CompileState τ → α' → β' → Prop} {x : CompileM σ α} {y : CompileM τ β}
  {s s' : CompileState σ} {t t' : CompileState τ}

theorem lockstep_pure {a : α} {b : β} (h : Q s t a b) : Lockstep d Q (pure a) (pure b) s t :=
  fun hmirrors => together_pure ⟨hmirrors, .refl s t, h⟩

theorem lockstep_throw (e : CompileError) : Lockstep d Q (throw e) (throw e) s t :=
  fun _ => together_throw e

/-- The second steps have only to go on in lockstep from later states, with results that
correspond. -/
theorem Lockstep.bind {f : α → CompileM σ α'} {g : β → CompileM τ β'} (h : Lockstep d Q x y s t)
    (hfg : ∀ a s' b t', Later s t s' t' → Q s' t' a b → Lockstep d Q' (f a) (g b) s' t') :
    Lockstep d Q' (x >>= f) (y >>= g) s t := by
  intro hmirrors
  refine (h hmirrors).bind fun a s' b t' ⟨hmirrors', hlater, hab⟩ => ?_
  refine (hfg a s' b t' hlater hab hmirrors').mono fun a' s'' b' t'' _ ⟨hm, hl, hq⟩ => ?_
  exact ⟨hm, hlater.trans hl, hq⟩

theorem lockstep_modify {f : CompileState σ → CompileState σ} {g : CompileState τ → CompileState τ}
    (hmirrors : s.Mirrors d t → (f s).Mirrors d (g t)) (hlater : Later s t (f s) (g t)) :
    Lockstep d (fun _ _ _ _ => True) (modify f) (modify g) s t :=
  fun h => together_of_runs ((runs_modify (u := ⟨⟩)).2 rfl) ((runs_modify (u := ⟨⟩)).2 rfl)
    ⟨hmirrors h, hlater, trivial⟩

theorem lockstep_get :
    Lockstep d (fun _ _ _ _ => True) (get : CompileM σ _) (get : CompileM τ _) s t :=
  fun h => together_of_runs (runs_get.2 ⟨rfl, rfl⟩) (runs_get.2 ⟨rfl, rfl⟩) ⟨h, .refl s t, trivial⟩

/-- Both compilations do something for items that go in step, one after another. -/
theorem lockstep_forM {R : α → β → Prop} {xs : List α} {ys : List β} {f : α → CompileM σ PUnit}
    {g : β → CompileM τ PUnit} (h : List.Forall₂ R xs ys)
    (hfg : ∀ x y, R x y → ∀ s' t', Later s t s' t' →
      Lockstep d (fun _ _ _ _ => True) (f x) (g y) s' t') :
    Lockstep d (fun _ _ _ _ => True) (xs.forM f) (ys.forM g) s t := by
  induction h generalizing s t with
  | nil => exact lockstep_pure trivial
  | @cons x y xs ys hxy _ ih =>
      refine (hfg x y hxy s t (.refl s t)).bind fun _ s₁ _ t₁ hlater _ => ?_
      exact ih fun x y hxy s' t' hlater' => hfg x y hxy s' t' (hlater.trans hlater')

/-- Both compilations give out the same id. -/
theorem lockstep_takeId :
    Lockstep d (fun _ _ id id' => id' = id)
      (modifyGet fun s => (s.nextId, { s with nextId := s.nextId + 1 }))
      (modifyGet fun t => (t.nextId, { t with nextId := t.nextId + 1 })) s t :=
  fun h => together_of_runs (runs_modifyGet.2 ⟨rfl, rfl⟩) (runs_modifyGet.2 ⟨rfl, rfl⟩)
    ⟨h.takeId, .of_claimed_eq rfl rfl, h.nextId⟩

/-- Where both compilations ask for the same key of the document, they get keys that are paired. -/
theorem lockstep_claim {key : SelectionSetId} (hkey : d.Has key) :
    Lockstep d Pairs (modifyGet fun s => s.claim d key) (modifyGet fun t => t.claim d key) s t :=
  fun h => together_of_runs (runs_modifyGet.2 ⟨rfl, rfl⟩) (runs_modifyGet.2 ⟨rfl, rfl⟩)
    (h.claim hkey)

end Steps

end QueryPlan
