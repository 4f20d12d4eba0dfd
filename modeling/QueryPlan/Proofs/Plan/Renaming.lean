import QueryPlan.Proofs.Plan.Enumeration

/-!
# Plans with other keys

The keys of a plan are ids of selection sets, and those of synthetic sets depend on how many were
put in before. A plan is renamed by giving each of its keys another one. As long as no two keys
become one, whoever walks through the renamed plan meets the same selections with the same ids, and
prints the same text.
-/

set_option autoImplicit false

namespace QueryPlan

variable {f : SelectionSetId → SelectionSetId}

/-! ## Renamings -/

/-- Some keys are renamed: no id of a document, only synthetic ids to synthetic ones, and in the
same order. -/
structure KeyRenaming (d : Document) (keys : List SelectionSetId)
    (f : SelectionSetId → SelectionSetId) : Prop where
  document : ∀ k, k.index < d.syntaxArena.nextSelectionSetId.index → f k = k
  synthetic : ∀ k ∈ keys, d.syntaxArena.nextSelectionSetId.index ≤ k.index →
    d.syntaxArena.nextSelectionSetId.index ≤ (f k).index
  order : ∀ k ∈ keys, ∀ j ∈ keys, k.index < j.index → (f k).index < (f j).index

namespace KeyRenaming

variable {d : Document} {keys keys' : List SelectionSetId}

theorem mono (h : KeyRenaming d keys f) (hsub : keys' ⊆ keys) : KeyRenaming d keys' f where
  document := h.document
  synthetic k hk := h.synthetic k (hsub hk)
  order k hk j hj := h.order k (hsub hk) j (hsub hj)

/-- No two keys become one. -/
theorem eq_of_eq (h : KeyRenaming d keys f) {k j : SelectionSetId} (hk : k ∈ keys) (hj : j ∈ keys)
    (heq : f k = f j) : k = j := by
  rcases Nat.lt_trichotomy k.index j.index with hlt | hindex | hlt
  · have horder := h.order k hk j hj hlt
    rw [heq] at horder
    exact absurd horder (lt_irrefl _)
  · cases k
    cases j
    exact congrArg SelectionSetId.mk hindex
  · have horder := h.order j hj k hk hlt
    rw [heq] at horder
    exact absurd horder (lt_irrefl _)

/-- A key of the document is one of the renamed keys only if it was one before. -/
theorem mem_map_iff (h : KeyRenaming d keys f) {k : SelectionSetId}
    (hk : k.index < d.syntaxArena.nextSelectionSetId.index) : k ∈ keys.map f ↔ k ∈ keys := by
  rw [List.mem_map]
  constructor
  · rintro ⟨j, hj, hjk⟩
    by_cases hdocument : j.index < d.syntaxArena.nextSelectionSetId.index
    · rwa [← hjk, h.document j hdocument]
    · have hsynthetic := h.synthetic j hj (Nat.le_of_not_lt hdocument)
      rw [hjk] at hsynthetic
      omega
  · exact fun hmem => ⟨k, hmem, h.document k hk⟩

/-- A key of the document can be taken in as it is. -/
theorem cons_document (h : KeyRenaming d keys f) {k : SelectionSetId}
    (hk : k.index < d.syntaxArena.nextSelectionSetId.index) : KeyRenaming d (k :: keys) f where
  document := h.document
  synthetic := by
    refine List.forall_mem_cons.2 ⟨fun hle => ?_, h.synthetic⟩
    omega
  order := by
    -- whether a key of the document comes first is not changed by renaming
    have hafter : ∀ j ∈ keys, k.index < j.index → k.index < (f j).index := by
      intro j hj hlt
      by_cases hdocument : j.index < d.syntaxArena.nextSelectionSetId.index
      · rwa [h.document j hdocument]
      · exact hk.trans_le (h.synthetic j hj (Nat.le_of_not_lt hdocument))
    have hbefore : ∀ j, j.index < k.index → (f j).index < k.index := by
      intro j hlt
      rwa [h.document j (hlt.trans hk)]
    refine List.forall_mem_cons.2 ⟨?_, fun i hi => ?_⟩
    · rw [h.document k hk]
      exact List.forall_mem_cons.2 ⟨fun hlt => absurd hlt (lt_irrefl _), hafter⟩
    · refine List.forall_mem_cons.2 ⟨?_, h.order i hi⟩
      rw [h.document k hk]
      exact hbefore i

/-- A synthetic key that comes after all others is renamed to one that does so too. -/
theorem cons_synthetic (h : KeyRenaming d keys f) {k k' : SelectionSetId}
    (hk : d.syntaxArena.nextSelectionSetId.index ≤ k.index)
    (hk' : d.syntaxArena.nextSelectionSetId.index ≤ k'.index)
    (hlast : ∀ j ∈ keys, j.index < k.index ∧ (f j).index < k'.index) :
    KeyRenaming d (k :: keys) (Function.update f k k') := by
  have hold : ∀ j ∈ keys, Function.update f k k' j = f j := by
    intro j hj
    refine Function.update_of_ne (fun hjk => ?_) _ _
    exact absurd (hlast j hj).1 (hjk ▸ lt_irrefl _)
  refine ⟨fun j hj => ?_, ?_, ?_⟩
  · have hne : j ≠ k := fun hjk => by
      rw [hjk] at hj
      omega
    rw [Function.update_of_ne hne, h.document j hj]
  · refine List.forall_mem_cons.2 ⟨fun _ => ?_, fun j hj => ?_⟩
    · rwa [Function.update_self]
    · rw [hold j hj]
      exact h.synthetic j hj
  · refine List.forall_mem_cons.2 ⟨?_, fun i hi => ?_⟩
    · refine List.forall_mem_cons.2 ⟨fun hlt => absurd hlt (lt_irrefl _), fun j hj hlt => ?_⟩
      have hlt' := (hlast j hj).1
      omega
    · rw [hold i hi]
      refine List.forall_mem_cons.2 ⟨fun _ => ?_, fun j hj => ?_⟩
      · rw [Function.update_self]
        exact (hlast i hi).2
      · rw [hold j hj]
        exact h.order i hi j hj

end KeyRenaming

/-! ## What is renamed -/

/-- The selection with another key. -/
def Selection.rename (f : SelectionSetId → SelectionSetId) (s : Selection) : Selection :=
  { s with selectionSet := s.selectionSet.map f }

theorem Selection.rename_of_leaf {s : Selection} (h : s.selectionSet = none) : s.rename f = s := by
  rw [rename, h, Option.map_none, ← h]

mutual

/-- The selection set with other keys, its deferred fragments included. -/
def SelectionSet.rename (f : SelectionSetId → SelectionSetId) : SelectionSet → SelectionSet
  | ⟨t, selections, deferred⟩ =>
    ⟨t, selections.map (Selection.rename f), renameDeferred f deferred⟩

def renameDeferred (f : SelectionSetId → SelectionSetId) :
    List (DeferredFragment SelectionSet) → List (DeferredFragment SelectionSet)
  | [] => []
  | d :: ds => renameDeferredFragment f d :: renameDeferred f ds

def renameDeferredFragment (f : SelectionSetId → SelectionSetId) :
    DeferredFragment SelectionSet → DeferredFragment SelectionSet
  | ⟨source, label, ifVariable, typeCondition, condition, set⟩ =>
    ⟨source, label, ifVariable, typeCondition, condition, set.rename f⟩

end

/-- What was compiled for a key, with other keys. -/
def SelectionVariants.rename (f : SelectionSetId → SelectionSetId) (v : SelectionVariants) :
    SelectionVariants :=
  ⟨f v.id, v.sets.mapValues fun _ set => set.rename f⟩

theorem renameDeferred_eq_map (ds : List (DeferredFragment SelectionSet)) :
    renameDeferred f ds = ds.map (renameDeferredFragment f) := by
  induction ds with
  | nil => rfl
  | cons d ds ih => rw [renameDeferred, ih, List.map_cons]

theorem SelectionSet.rename_mk (t : ObjectType) (selections : List Selection)
    (deferred : List (DeferredFragment SelectionSet)) :
    SelectionSet.rename f ⟨t, selections, deferred⟩ =
      ⟨t, selections.map (Selection.rename f), deferred.map (renameDeferredFragment f)⟩ := by
  rw [rename, renameDeferred_eq_map]

@[simp] theorem SelectionSet.objectType_rename (set : SelectionSet) :
    (set.rename f).objectType = set.objectType := by
  cases set
  rfl

@[simp] theorem head_renameDeferredFragment (d : DeferredFragment SelectionSet) :
    (renameDeferredFragment f d).head = d.head := by
  cases d
  rfl

@[simp] theorem selectionSet_renameDeferredFragment (d : DeferredFragment SelectionSet) :
    (renameDeferredFragment f d).selectionSet = d.selectionSet.rename f := by
  cases d
  rfl

/-! ## Walks through what is renamed -/

/-- A renamed set prints the same if what is below its keys does. -/
theorem SelectionSet.lines_rename {children children' : Nat → SelectionSetId → List String}
    (set : SelectionSet)
    (h : ∀ key ∈ set.childKeys, ∀ depth, children' depth (f key) = children depth key)
    (depth : Nat) : (set.rename f).lines children' depth = set.lines children depth := by
  induction set using SelectionSet.induct generalizing depth with
  | mk t selections deferred ih =>
      rw [SelectionSet.childKeys_mk] at h
      rw [rename_mk, lines_mk, lines_mk, List.flatMap_map, List.flatMap_map]
      congr 1
      · refine List.flatMap_congr fun s hs => ?_
        cases hkey : s.selectionSet with
        | none => rw [Selection.rename_of_leaf hkey, Selection.lines_leaf hkey,
            Selection.lines_leaf hkey]
        | some key =>
            have hkey' : (s.rename f).selectionSet = some (f key) := by
              rw [Selection.rename, hkey, Option.map_some]
            have hmem : key ∈ selectionKeys selections := List.mem_filterMap.2 ⟨s, hs, hkey⟩
            rw [Selection.lines_inner hkey, Selection.lines_inner hkey',
              h key (List.mem_append_left _ hmem)]
            rfl
      · refine List.flatMap_congr fun d hd => ?_
        rw [head_renameDeferredFragment, selectionSet_renameDeferredFragment,
          ih d hd fun key hkey => h key ?_]
        exact List.mem_append_right _ (List.mem_flatMap.2 ⟨d, hd, hkey⟩)

/-- In a renamed set the same selections are met, renamed, if this is so below its keys. -/
theorem SelectionSet.met_rename {below below' : SelectionSetId → List Selection}
    (set : SelectionSet)
    (h : ∀ key ∈ set.childKeys, below' (f key) = (below key).map (Selection.rename f)) :
    (set.rename f).met below' = (set.met below).map (Selection.rename f) := by
  induction set using SelectionSet.induct with
  | mk t selections deferred ih =>
      rw [SelectionSet.childKeys_mk] at h
      rw [rename_mk, met_mk, met_mk, List.map_append, List.map_flatMap, List.map_flatMap,
        List.flatMap_map, List.flatMap_map]
      congr 1
      · refine List.flatMap_congr fun s hs => ?_
        show s.rename f :: (s.selectionSet.map f).elim [] below' = _
        rw [List.map_cons]
        cases hkey : s.selectionSet with
        | none => rfl
        | some key =>
            have hmem : key ∈ selectionKeys selections := List.mem_filterMap.2 ⟨s, hs, hkey⟩
            rw [Option.map_some, Option.elim_some, Option.elim_some,
              h key (List.mem_append_left _ hmem)]
      · refine List.flatMap_congr fun d hd => ?_
        rw [selectionSet_renameDeferredFragment]
        refine ih d hd fun key hkey => h key ?_
        exact List.mem_append_right _ (List.mem_flatMap.2 ⟨d, hd, hkey⟩)

/-! ## Renamed plans -/

/-- What stands under a key in one view and under another key in the other has the same selections,
and is from the same place. -/
def SyntaxView.SameSet (v v' : SyntaxView) (k k' : SelectionSetId) : Prop :=
  ∃ node node', v.selectionSet? k = some node ∧ v'.selectionSet? k' = some node' ∧
    node'.location = node.location ∧ node'.selections = node.selections

/-- The second plan is the first one with other keys, which stand for the same syntax. -/
structure Plan.Renamed (f : SelectionSetId → SelectionSetId) (p p' : Plan) : Prop where
  document : p'.document = p.document
  operation : p'.operation = p.operation
  rootType : p'.rootType = p.rootType
  selectionCount : p'.selectionCount = p.selectionCount
  variants : p'.variants.entries = p.variants.entries.map (Prod.map f (SelectionVariants.rename f))
  nodes : ∀ k ∈ p.variants.keys, p.view.SameSet p'.view k (f k)

namespace Plan

variable {p p' : Plan}

/-- Under a renamed key stands what stood under the key, renamed. -/
theorem Renamed.get? (h : p.Renamed f p') {k : SelectionSetId} {v : SelectionVariants}
    (hv : p.variants.get? k = some v) : p'.variants.get? (f k) = some (v.rename f) := by
  rw [OrderedMap.get?_eq_some_iff, h.variants, List.mem_map]
  exact ⟨(k, v), OrderedMap.get?_eq_some_iff.1 hv, rfl⟩

/-- What the selections of a tree own are keys of it. -/
theorem IsTree.mem_keys_of_childKeys (h : p.IsTree) {k key : SelectionSetId}
    {v : SelectionVariants} {set : SelectionSet} (hv : p.variants.get? k = some v)
    (hset : set ∈ v.sets.values) (hkey : key ∈ set.childKeys) : key ∈ p.variants.keys := by
  refine (h.mem_keys_iff key).2 (Or.inr (List.mem_flatMap.2 ⟨v, ?_, ?_⟩))
  · exact OrderedMap.mem_values_iff.2 ⟨k, hv⟩
  · exact List.mem_flatMap.2 ⟨set, hset, hkey⟩

/-- Under each key of a tree the same is printed after renaming. -/
theorem Renamed.variantLines_eq (h : p.Renamed f p') (htree : p.IsTree) (fuel depth : Nat)
    {k : SelectionSetId} (hk : k ∈ p.variants.keys) :
    p'.variantLines fuel depth (f k) = p.variantLines fuel depth k := by
  induction fuel generalizing depth k with
  | zero => rfl
  | succ fuel ih =>
      obtain ⟨v, hv⟩ := OrderedMap.mem_keys_iff.1 hk
      rw [variantLines, variantLines, h.get? hv, hv]
      show (v.sets.entries.map fun e => (e.1, e.2.rename f)).flatMap _ = _
      rw [List.flatMap_map]
      refine List.flatMap_congr fun e he => ?_
      have hset : e.2 ∈ v.sets.values := List.mem_map_of_mem he
      refine congrArg (block depth ("... on " ++ e.1)) ?_
      exact SelectionSet.lines_rename e.2 (fun key hkey depth =>
        ih depth (htree.mem_keys_of_childKeys hv hset hkey)) (depth + 1)

/-- Below each key of a tree the same selections are met after renaming. -/
theorem Renamed.met_eq (h : p.Renamed f p') (htree : p.IsTree) (fuel : Nat) {k : SelectionSetId}
    (hk : k ∈ p.variants.keys) : p'.met fuel (f k) = (p.met fuel k).map (Selection.rename f) := by
  induction fuel generalizing k with
  | zero => rfl
  | succ fuel ih =>
      obtain ⟨v, hv⟩ := OrderedMap.mem_keys_iff.1 hk
      rw [met_succ hv, met_succ (h.get? hv), List.map_flatMap]
      have hvalues : (v.rename f).sets.values = v.sets.values.map (SelectionSet.rename f) := by
        simp [SelectionVariants.rename, OrderedMap.values, OrderedMap.mapValues]
      rw [hvalues, List.flatMap_map]
      refine List.flatMap_congr fun set hset => ?_
      exact SelectionSet.met_rename set fun key hkey =>
        ih (htree.mem_keys_of_childKeys hv hset hkey)

theorem Renamed.size_eq (h : p.Renamed f p') : p'.variants.size = p.variants.size := by
  rw [OrderedMap.size, h.variants, List.length_map, OrderedMap.size]

/-- A tree prints the same text after renaming, if its root keeps its key. -/
theorem Renamed.print_eq (h : p.Renamed f p') (htree : p.IsTree) (hroot : f p.root = p.root) :
    p'.print = p.print := by
  have hmem : p.root ∈ p.variants.keys := (htree.mem_keys_iff p.root).2 (Or.inl rfl)
  have hlines := h.variantLines_eq htree p.variants.size 1 hmem
  rw [hroot] at hlines
  have hroot' : p'.root = p.root := congrArg OperationNode.selectionSet h.operation
  rw [print, print, lines, lines, h.operation, h.size_eq, hroot', hlines]

/-- The ids of the selections that are met in a tree stay the same, and so does their order. -/
theorem Renamed.ids_eq (h : p.Renamed f p') (htree : p.IsTree) (hroot : f p.root = p.root) :
    (p'.metBelow p'.root).map (·.id) = (p.metBelow p.root).map (·.id) := by
  have hmem : p.root ∈ p.variants.keys := (htree.mem_keys_iff p.root).2 (Or.inl rfl)
  have hmet := h.met_eq htree p.variants.size hmem
  rw [hroot] at hmet
  have hroot' : p'.root = p.root := congrArg OperationNode.selectionSet h.operation
  rw [metBelow, h.size_eq, hroot', hmet, List.map_map]
  rfl

end Plan

end QueryPlan
