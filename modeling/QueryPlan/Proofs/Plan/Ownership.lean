import QueryPlan.Proofs.Plan.Lawful

/-!
# Who owns which key

Every key that is claimed while compiling belongs to one selection. Where a compilation stands,
some claimed keys are `pending`: nothing has been stored for them yet. Others are `loose`: the
selections that own them are not stored yet, because their selection set is still being built.
`Owned` says that all other claimed keys are accounted for exactly once on either side, and that
all of them can be reached from the loose ones. Each step of a compilation keeps it, for whatever
was pending and loose around the step.
-/

set_option autoImplicit false

namespace QueryPlan

variable {σ : Type}

/-! ## Keys in selection sets -/

mutual

/-- A selection set together with those of all its deferred fragments. -/
def SelectionSet.parts : SelectionSet → List SelectionSet
  | ⟨objectType, selections, deferred⟩ =>
    ⟨objectType, selections, deferred⟩ :: deferredParts deferred

def deferredParts : List (DeferredFragment SelectionSet) → List SelectionSet
  | [] => []
  | d :: ds => deferredFragmentParts d ++ deferredParts ds

def deferredFragmentParts : DeferredFragment SelectionSet → List SelectionSet
  | ⟨_, _, _, _, _, set⟩ => set.parts

end

theorem deferredParts_eq (ds : List (DeferredFragment SelectionSet)) :
    deferredParts ds = ds.flatMap fun d => d.selectionSet.parts := by
  induction ds with
  | nil => rfl
  | cons d ds ih =>
      cases d
      rw [deferredParts, List.flatMap_cons, ih, deferredFragmentParts]

theorem SelectionSet.parts_eq (s : SelectionSet) :
    s.parts = s :: s.deferred.flatMap fun d => d.selectionSet.parts := by
  cases s
  rw [← deferredParts_eq, parts]

theorem SelectionSet.mem_parts_self (s : SelectionSet) : s ∈ s.parts := by
  rw [parts_eq]
  exact List.mem_cons_self

/-- The keys of the sub-selections of some selections. -/
def selectionKeys (selections : List Selection) : List SelectionSetId :=
  selections.filterMap (·.selectionSet)

theorem selectionKeys_cons_none {s : Selection} {rest : List Selection}
    (h : s.selectionSet = none) : selectionKeys (s :: rest) = selectionKeys rest :=
  List.filterMap_cons_none h

theorem selectionKeys_cons_some {s : Selection} {rest : List Selection} {key : SelectionSetId}
    (h : s.selectionSet = some key) : selectionKeys (s :: rest) = key :: selectionKeys rest :=
  List.filterMap_cons_some h

/-- The keys that selections of the set own, those in deferred fragments included. -/
def SelectionSet.childKeys (s : SelectionSet) : List SelectionSetId :=
  s.parts.flatMap fun part => selectionKeys part.selections

theorem SelectionSet.childKeys_mk (t : ObjectType) (selections : List Selection)
    (deferred : List (DeferredFragment SelectionSet)) :
    SelectionSet.childKeys ⟨t, selections, deferred⟩ =
      selectionKeys selections ++ deferred.flatMap fun d => d.selectionSet.childKeys := by
  rw [childKeys, parts_eq, List.flatMap_cons, List.flatMap_assoc]
  rfl

/-- What has been compiled, by key. -/
abbrev VariantMap := OrderedMap SelectionSetId SelectionVariants

/-- The keys that the selections of all selection sets own. -/
def VariantMap.childKeys (v : VariantMap) : List SelectionSetId :=
  v.values.flatMap fun w => w.sets.values.flatMap (·.childKeys)

/-- The keys to which a chain of selections leads down from some roots. -/
inductive VariantMap.Reaches (v : VariantMap) (roots : List SelectionSetId) :
    SelectionSetId → Prop
  | root {k} : k ∈ roots → Reaches v roots k
  | child {k w set c} :
      Reaches v roots k → v.get? k = some w → set ∈ w.sets.values → c ∈ set.childKeys →
      Reaches v roots c

namespace VariantMap

variable {v w : VariantMap} {roots roots' : List SelectionSetId} {k : SelectionSetId}

/-- More selection sets and more roots reach at least as far. -/
theorem Reaches.mono (h : v.Reaches roots k)
    (hv : ∀ k a, v.get? k = some a →
      ∃ b, w.get? k = some b ∧ ∀ set ∈ a.sets.values, set ∈ b.sets.values)
    (hroots : ∀ k ∈ roots, w.Reaches roots' k) : w.Reaches roots' k := by
  induction h with
  | root hk => exact hroots _ hk
  | child _ hw hset hc ih =>
      obtain ⟨b, hb, hsub⟩ := hv _ _ hw
      exact .child ih hb (hsub _ hset) hc

end VariantMap

/-! ## States in which every key has an owner -/

namespace CompileState

/-- All claimed keys are reached and owned once, but for those that are pending or loose. -/
structure Owned (document : Document) (pending loose : List SelectionSetId)
    (s : CompileState σ) : Prop where
  view : (s.view document).Bounded
  below : ∀ k ∈ s.claimed, k.index < s.synthetic.nextSelectionSetId.index
  nodup : s.claimed.Nodup
  keys : ∀ k, s.variants.keys.count k + pending.count k = s.claimed.count k
  children : ∀ k, (VariantMap.childKeys s.variants).count k + loose.count k = s.claimed.count k
  reached : ∀ k ∈ s.claimed, VariantMap.Reaches s.variants loose k

/-- What was compiled before is not touched. -/
structure Kept (s s' : CompileState σ) : Prop where
  variants : ∀ {k v}, s.variants.get? k = some v → s'.variants.get? k = some v
  synthetic : s.synthetic.Grows s'.synthetic

theorem Kept.refl (s : CompileState σ) : s.Kept s := ⟨id, .refl _⟩

theorem Kept.trans {s s₁ s₂ : CompileState σ} (h : s.Kept s₁) (h' : s₁.Kept s₂) : s.Kept s₂ :=
  ⟨fun hv => h'.variants (h.variants hv), h.synthetic.trans h'.synthetic⟩

theorem Revised.kept {s s' : CompileState σ} (h : s.Revised s') : s.Kept s' := by
  obtain ⟨_, _, rfl, hgrows⟩ := h
  exact ⟨id, hgrows⟩

/-- What was compiled before is not touched, but for what stands under one key. -/
structure KeptBut (key : SelectionSetId) (s s' : CompileState σ) : Prop where
  keys : s.variants.keys ⊆ s'.variants.keys
  variants : ∀ {k v}, k ≠ key → s.variants.get? k = some v → s'.variants.get? k = some v
  synthetic : s.synthetic.Grows s'.synthetic

theorem Kept.keys {s s' : CompileState σ} (h : s.Kept s') :
    s.variants.keys ⊆ s'.variants.keys := by
  intro k hk
  obtain ⟨v, hv⟩ := OrderedMap.mem_keys_iff.1 hk
  exact OrderedMap.mem_keys_iff.2 ⟨v, h.variants hv⟩

theorem Kept.but {s s' : CompileState σ} (h : s.Kept s') {key : SelectionSetId} :
    s.KeptBut key s' :=
  ⟨h.keys, fun _ => h.variants, h.synthetic⟩

/-- What has been reached stays reached. -/
theorem Kept.reaches {s s' : CompileState σ} (h : s.Kept s') {roots roots' : List SelectionSetId}
    {k : SelectionSetId} (hk : VariantMap.Reaches s.variants roots k) (hroots : roots ⊆ roots') :
    VariantMap.Reaches s'.variants roots' k :=
  hk.mono (fun _ a ha => ⟨a, h.variants ha, fun _ => id⟩) fun _ hr => .root (hroots hr)

theorem KeptBut.refl (key : SelectionSetId) (s : CompileState σ) : s.KeptBut key s :=
  ⟨fun _ => id, fun _ => id, .refl _⟩

theorem KeptBut.trans {key : SelectionSetId} {s s₁ s₂ : CompileState σ} (h : s.KeptBut key s₁)
    (h' : s₁.KeptBut key s₂) : s.KeptBut key s₂ where
  keys := List.Subset.trans h.keys h'.keys
  variants hk hv := h'.variants hk (h.variants hk hv)
  synthetic := h.synthetic.trans h'.synthetic

variable {document : Document} {pending loose pending' loose' : List SelectionSetId}
  {s s' : CompileState σ}

namespace Owned

theorem perm (h : s.Owned document pending loose) (hp : pending.Perm pending')
    (hl : loose.Perm loose') : s.Owned document pending' loose' where
  view := h.view
  below := h.below
  nodup := h.nodup
  keys k := by rw [← hp.count_eq, h.keys]
  children k := by rw [← hl.count_eq, h.children]
  reached k hk := (Kept.refl s).reaches (h.reached k hk) hl.subset

theorem revised (h : s.Owned document pending loose) (hs : s.Revised s') :
    s'.Owned document pending loose := by
  obtain ⟨_, _, rfl, hgrows⟩ := hs
  exact ⟨h.view.grow hgrows, fun k hk => (h.below k hk).trans_le hgrows.extends_.sets, h.nodup,
    h.keys, h.children, h.reached⟩

/-- A pending key has not been reached. -/
theorem notMem_keys (h : s.Owned document pending loose) {key : SelectionSetId}
    (hkey : key ∈ pending) : key ∉ s.variants.keys := by
  intro hmem
  have hcount := h.keys key
  have hle := List.nodup_iff_count_le_one.1 h.nodup key
  have hp := List.count_pos_iff.2 hkey
  have hv := List.count_pos_iff.2 hmem
  omega

/-- A key that has been reached is taken, and so owned or loose. -/
theorem reaches_of_mem_keys (h : s.Owned document pending loose) {key : SelectionSetId}
    (hkey : key ∈ s.variants.keys) : VariantMap.Reaches s.variants loose key := by
  refine h.reached key (List.count_pos_iff.1 ?_)
  rw [← h.keys]
  exact Nat.add_pos_left (List.count_pos_iff.2 hkey) _

end Owned

/-! ## Reaching a key -/

theorem reach_of_mem {key : SelectionSetId} (h : key ∈ s.variants.keys) : s.reach key = s :=
  if_pos (OrderedMap.contains_iff.2 h)

theorem reach_of_notMem {key : SelectionSetId} (h : key ∉ s.variants.keys) :
    s.reach key = { s with variants := s.variants.insert key ⟨key, .empty⟩ } :=
  if_neg fun hc => h (OrderedMap.contains_iff.1 hc)

/-- Reaching a pending key starts it without selection sets. -/
theorem Owned.reach {key : SelectionSetId} (h : s.Owned document (key :: pending) loose) :
    (s.reach key).Owned document pending loose ∧ s.Kept (s.reach key) ∧
      (s.reach key).variants.get? key = some ⟨key, .empty⟩ := by
  have hnew : key ∉ s.variants.keys := h.notMem_keys List.mem_cons_self
  have hkept : s.Kept { s with variants := s.variants.insert key ⟨key, .empty⟩ } := by
    refine ⟨fun {k v} hv => ?_, .refl _⟩
    have hne : k ≠ key := fun hk => hnew (hk ▸ OrderedMap.mem_keys_iff.2 ⟨v, hv⟩)
    rwa [OrderedMap.get?_insert_of_ne _ _ hne]
  have hentries := OrderedMap.entries_insert_of_notMem (⟨key, .empty⟩ : SelectionVariants) hnew
  rw [reach_of_notMem hnew]
  -- the key is no longer pending but one of the map, and owns nothing yet
  refine ⟨⟨h.view, h.below, h.nodup, fun k => ?_, fun k => ?_, fun k hk => ?_⟩,
    hkept, OrderedMap.get?_insert_self _ _ _⟩
  · have hk := h.keys k
    rw [List.count_cons] at hk
    rw [OrderedMap.keys, hentries, List.map_append, List.count_append, ← OrderedMap.keys]
    simp only [List.map_cons, List.map_nil, List.count_singleton]
    omega
  · have hk := h.children k
    rw [VariantMap.childKeys, OrderedMap.values, hentries]
    rw [VariantMap.childKeys, OrderedMap.values] at hk
    simpa using hk
  · exact hkept.reaches (h.reached k hk) (List.Subset.refl _)

/-! ## Claiming a key -/

/-- A claimed key is pending and loose at first. -/
theorem Owned.claim {key : SelectionSetId} (h : s.Owned document pending loose)
    (hkey : key.index < s.synthetic.nextSelectionSetId.index) :
    (s.claim document key).2.Owned document ((s.claim document key).1 :: pending)
        ((s.claim document key).1 :: loose) ∧
      s.Kept (s.claim document key).2 := by
  -- taking a key that is not taken yet
  have htake : ∀ {fresh : SelectionSetId} {synthetic : SyntaxArena},
      s.synthetic.Grows synthetic → fresh ∉ s.claimed →
      fresh.index < synthetic.nextSelectionSetId.index →
      ({ s with synthetic := synthetic, claimed := fresh :: s.claimed } :
        CompileState σ).Owned document (fresh :: pending) (fresh :: loose) := by
    intro fresh synthetic hgrows hfresh hlt
    refine ⟨h.view.grow hgrows, fun k hk => ?_, List.nodup_cons.2 ⟨hfresh, h.nodup⟩,
      fun k => ?_, fun k => ?_, fun k hk => ?_⟩
    · rcases List.mem_cons.1 hk with rfl | hk
      · exact hlt
      · exact (h.below k hk).trans_le hgrows.extends_.sets
    · have hk := h.keys k
      simp only [List.count_cons]
      omega
    · have hk := h.children k
      simp only [List.count_cons]
      omega
    · rcases List.mem_cons.1 hk with rfl | hk
      · exact .root List.mem_cons_self
      · exact (Kept.refl s).reaches (h.reached k hk) (List.subset_cons_self _ _)
  unfold CompileState.claim
  split
  -- a key that is taken is copied, and the copy is above all that were claimed
  · have hgrows := fun node => (SyntaxArena.Grows.refl s.synthetic).copySelectionSet node
    have hlt : ∀ node, s.synthetic.nextSelectionSetId.index
        < (s.synthetic.copySelectionSet node).2.nextSelectionSetId.index := by
      intro node
      simp [SyntaxArena.copySelectionSet, SyntaxArena.nextSelectionSetId]
    exact ⟨htake (hgrows _) (fun hm => absurd (h.below _ hm) (lt_irrefl _)) (hlt _),
      ⟨id, hgrows _⟩⟩
  · rename_i hnew
    exact ⟨htake (.refl _) hnew hkey, ⟨id, .refl _⟩⟩

/-! ## Storing a selection set -/

theorem get?_store_of_ne {key k : SelectionSetId} (set : SelectionSet) (h : k ≠ key) :
    (s.store key set).variants.get? k = s.variants.get? k :=
  OrderedMap.get?_modify_of_ne _ _ h

theorem get?_store_self {key : SelectionSetId} {v : SelectionVariants} (set : SelectionSet)
    (hv : s.variants.get? key = some v) :
    (s.store key set).variants.get? key =
      some { v with sets := v.sets.insert set.objectType.name set } := by
  rw [store, OrderedMap.get?_modify_self, hv]
  rfl

theorem keptBut_store (s : CompileState σ) (key : SelectionSetId) (set : SelectionSet) :
    s.KeptBut key (s.store key set) where
  keys := by
    rw [store, OrderedMap.keys_modify]
    exact List.Subset.refl _
  variants hk hv := (get?_store_of_ne set hk).trans hv
  synthetic := .refl _

/-- Stored under a key that is owned already, a selection set owns its keys. -/
theorem Owned.store {key : SelectionSetId} {set : SelectionSet} {v : SelectionVariants}
    (h : s.Owned document pending (set.childKeys ++ loose))
    (hv : s.variants.get? key = some v) (hnew : set.objectType.name ∉ v.sets.keys)
    (hreach : VariantMap.Reaches s.variants loose key) :
    (s.store key set).Owned document pending loose := by
  have hentries := OrderedMap.entries_insert_of_notMem set hnew
  -- no set is lost by storing another one
  have hsub : ∀ k a, s.variants.get? k = some a →
      ∃ b, (s.store key set).variants.get? k = some b ∧
        ∀ set ∈ a.sets.values, set ∈ b.sets.values := by
    intro k a ha
    by_cases hk : k = key
    · subst hk
      obtain rfl : v = a := Option.some.inj (hv.symm.trans ha)
      refine ⟨_, get?_store_self set hv, fun set' hset' => ?_⟩
      rw [OrderedMap.values, hentries, List.map_append]
      exact List.mem_append_left _ hset'
    · exact ⟨a, (get?_store_of_ne set hk).trans ha, fun _ => id⟩
  refine ⟨h.view, h.below, h.nodup, fun k => ?_, fun k => ?_, fun k hk => ?_⟩
  · rw [CompileState.store, OrderedMap.keys_modify]
    exact h.keys k
  -- the keys of the set were loose, and are owned by what the map has now
  · obtain ⟨before, after, hbefore, hafter⟩ := OrderedMap.entries_modify
      (fun v => { v with sets := v.sets.insert set.objectType.name set }) hv
    have hk := h.children k
    rw [VariantMap.childKeys, OrderedMap.values, hbefore] at hk
    rw [CompileState.store, VariantMap.childKeys, OrderedMap.values, hafter]
    simp only [OrderedMap.values, hentries, List.map_append, List.map_cons, List.map_nil,
      List.flatMap_append, List.flatMap_cons, List.flatMap_nil, List.append_nil,
      List.count_append] at hk ⊢
    omega
  · refine (h.reached k hk).mono hsub fun r hr => ?_
    rcases List.mem_append.1 hr with hr | hr
    -- from the key that the set is stored under
    · refine .child (hreach.mono hsub fun _ hr => .root hr) (get?_store_self set hv) ?_ hr
      rw [OrderedMap.values, hentries, List.map_append]
      exact List.mem_append_right _ (List.mem_singleton_self _)
    · exact .root hr

end CompileState

/-! ## Finishing drafts -/

namespace CompileInput

variable {input : CompileInput σ} {live : LiveOccurrences} {d : SelectionDraft}
  {ds : List SelectionDraft} {selections : List Selection} {jobs : List ChildJob}
  {s s' : CompileState σ}

/-- Taking the id of the next selection. -/
def takeId (s : CompileState σ) : CompileState σ := { s with nextId := s.nextId + 1 }

/-- The sub-selections that a draft leaves to compile under a key. -/
def childJob (live : LiveOccurrences) (d : SelectionDraft) (key : SelectionSetId) : ChildJob :=
  ⟨key, d.declaringType, d.field, d.responseKey, occurrencesOf live d⟩

theorem runs_finish_nil :
    Runs (input.finish live []) s (selections, jobs) s' ↔
      selections = [] ∧ jobs = [] ∧ s' = s := by
  rw [finish, runs_pure, Prod.mk.injEq, and_assoc]

/-- A draft without sub-selections takes an id. -/
theorem runs_finish_leaf (hd : d.selectionSet = none) :
    Runs (input.finish live (d :: ds)) s (selections, jobs) s' ↔
      ∃ rest, Runs (input.finish live ds) (takeId s) (rest, jobs) s' ∧
        selections = { d with id := s.nextId } :: rest := by
  rw [finish, runs_bind]
  constructor
  · rintro ⟨id, s₁, hid, h⟩
    obtain ⟨rfl, rfl⟩ := runs_modifyGet.1 hid
    rw [hd] at h
    obtain ⟨⟨rest, jobs'⟩, s₂, hrest, h⟩ := runs_bind.1 h
    obtain ⟨heq, rfl⟩ := runs_pure.1 h
    cases heq
    exact ⟨rest, hrest, rfl⟩
  · rintro ⟨rest, hrest, rfl⟩
    refine ⟨s.nextId, takeId s, runs_modifyGet.2 ⟨rfl, rfl⟩, ?_⟩
    rw [hd]
    exact runs_bind.2 ⟨(rest, jobs), s', hrest, runs_pure.2 ⟨rfl, rfl⟩⟩

/-- A draft with sub-selections takes an id and a key, and leaves a job. -/
theorem runs_finish_inner {set : SelectionSetId} (hd : d.selectionSet = some set) :
    Runs (input.finish live (d :: ds)) s (selections, jobs) s' ↔
      ∃ key s₁ rest jobs', (takeId s).claim input.document set = (key, s₁) ∧
        Runs (input.finish (withoutOccurrencesOf live d) ds) s₁ (rest, jobs') s' ∧
        selections = { d with selectionSet := some key, id := s.nextId } :: rest ∧
        jobs = childJob live d key :: jobs' := by
  rw [finish, runs_bind]
  constructor
  · rintro ⟨id, s₁, hid, h⟩
    obtain ⟨rfl, rfl⟩ := runs_modifyGet.1 hid
    rw [hd] at h
    obtain ⟨key, s₂, hkey, h⟩ := runs_bind.1 h
    obtain ⟨rfl, rfl⟩ := runs_modifyGet.1 hkey
    obtain ⟨⟨rest, jobs'⟩, s₃, hrest, h⟩ := runs_bind.1 h
    obtain ⟨heq, rfl⟩ := runs_pure.1 h
    cases heq
    exact ⟨_, _, rest, jobs', rfl, hrest, rfl, rfl⟩
  · rintro ⟨key, s₁, rest, jobs', hkey, hrest, rfl, rfl⟩
    refine ⟨s.nextId, takeId s, runs_modifyGet.2 ⟨rfl, rfl⟩, ?_⟩
    rw [hd]
    refine runs_bind.2 ⟨key, s₁, runs_modifyGet.2 ?_, ?_⟩
    · exact ⟨(congrArg Prod.fst hkey).symm, (congrArg Prod.snd hkey).symm⟩
    · exact runs_bind.2 ⟨(rest, jobs'), s', hrest, runs_pure.2 ⟨rfl, rfl⟩⟩

/-- The keys that finishing takes are pending, as those of jobs, and loose, as those of
selections. Nothing else happens. -/
theorem owned_finish {pending loose : List SelectionSetId}
    (h : s.Owned input.document pending loose)
    (hds : ∀ d ∈ ds, ∀ set, d.selectionSet = some set →
      set.index < s.synthetic.nextSelectionSetId.index)
    (hrun : Runs (input.finish live ds) s (selections, jobs) s') :
    s'.Owned input.document (jobs.map (·.key) ++ pending) (selectionKeys selections ++ loose) ∧
      s.Kept s' ∧ s'.variants = s.variants := by
  induction ds generalizing live s selections jobs pending loose with
  | nil =>
      obtain ⟨rfl, rfl, rfl⟩ := runs_finish_nil.1 hrun
      exact ⟨h, .refl _, rfl⟩
  | cons d ds ih =>
      have htake : (takeId s).Owned input.document pending loose :=
        ⟨h.view, h.below, h.nodup, h.keys, h.children, h.reached⟩
      cases hd : d.selectionSet with
      | none =>
          obtain ⟨rest, hrest, rfl⟩ := (runs_finish_leaf hd).1 hrun
          obtain ⟨howned, hkept, hvariants⟩ := ih htake
            (fun d hd => hds d (List.mem_cons_of_mem _ hd)) hrest
          refine ⟨?_, ⟨hkept.variants, hkept.synthetic⟩, hvariants⟩
          rwa [selectionKeys_cons_none (by exact hd)]
      | some set =>
          obtain ⟨key, s₁, rest, jobs', hclaim, hrest, rfl, rfl⟩ := (runs_finish_inner hd).1 hrun
          obtain ⟨hclaimed, hkept₁⟩ := htake.claim (hds d List.mem_cons_self set hd)
          rw [hclaim] at hclaimed hkept₁
          -- the key is pending and loose while the other drafts are finished
          have hbelow : ∀ d ∈ ds, ∀ set, d.selectionSet = some set →
              set.index < s₁.synthetic.nextSelectionSetId.index := fun d hd set hset =>
            (hds d (List.mem_cons_of_mem _ hd) set hset).trans_le hkept₁.synthetic.extends_.sets
          have hvariants₁ : s₁.variants = s.variants := by
            have hs₁ : s₁ = ((takeId s).claim input.document set).2 :=
              (congrArg Prod.snd hclaim).symm
            rw [hs₁, CompileState.claim]
            split <;> rfl
          obtain ⟨howned, hkept, hvariants⟩ := ih hclaimed hbelow hrest
          refine ⟨howned.perm ?_ ?_, ⟨fun hv => hkept.variants (hkept₁.variants hv),
            hkept₁.synthetic.trans hkept.synthetic⟩, hvariants.trans hvariants₁⟩
          · exact List.perm_middle
          · rw [selectionKeys_cons_some rfl]
            exact List.perm_middle

/-- Drafts with the selections and the jobs that they are finished to, whatever ids and keys
they take. -/
inductive Finished : LiveOccurrences → List SelectionDraft → List Selection → List ChildJob → Prop
  | nil {live : LiveOccurrences} : Finished live [] [] []
  | leaf {live : LiveOccurrences} {d : SelectionDraft} {ds : List SelectionDraft}
      {rest : List Selection} {jobs : List ChildJob} {id : Nat} :
      d.selectionSet = none → Finished live ds rest jobs →
      Finished live (d :: ds) ({ d with id := id } :: rest) jobs
  | inner {live : LiveOccurrences} {d : SelectionDraft} {ds : List SelectionDraft}
      {rest : List Selection} {jobs : List ChildJob} {id : Nat} {set key : SelectionSetId} :
      d.selectionSet = some set → Finished (withoutOccurrencesOf live d) ds rest jobs →
      Finished live (d :: ds) ({ d with selectionSet := some key, id := id } :: rest)
        (childJob live d key :: jobs)

theorem finished_of_runs (hrun : Runs (input.finish live ds) s (selections, jobs) s') :
    Finished live ds selections jobs := by
  induction ds generalizing live s selections jobs with
  | nil =>
      obtain ⟨rfl, rfl, -⟩ := runs_finish_nil.1 hrun
      exact .nil
  | cons d ds ih =>
      cases hd : d.selectionSet with
      | none =>
          obtain ⟨rest, hrest, rfl⟩ := (runs_finish_leaf hd).1 hrun
          exact .leaf hd (ih hrest)
      | some set =>
          obtain ⟨key, s₁, rest, jobs', -, hrest, rfl, rfl⟩ := (runs_finish_inner hd).1 hrun
          exact .inner hd (ih hrest)

/-- A selection with a key has a job for its field. -/
theorem Finished.job {s : Selection} {key : SelectionSetId}
    (h : Finished live ds selections jobs) (hs : s ∈ selections)
    (hkey : s.selectionSet = some key) :
    ∃ job ∈ jobs, job.key = key ∧ job.declaringType = s.declaringType ∧ job.field = s.field ∧
      job.responseKey = s.responseKey := by
  induction h with
  | nil => exact absurd hs List.not_mem_nil
  | leaf hd _ ih =>
      rcases List.mem_cons.1 hs with rfl | hs
      · exact absurd (hkey.symm.trans hd) (by simp)
      · exact ih hs
  | inner _ _ ih =>
      rcases List.mem_cons.1 hs with rfl | hs
      · exact ⟨_, List.mem_cons_self, Option.some.inj hkey, rfl, rfl, rfl⟩
      · obtain ⟨job, hjob, heq⟩ := ih hs
        exact ⟨job, List.mem_cons_of_mem _ hjob, heq⟩

/-- Finishing drafts does not fail. -/
theorem succeeds_finish (live : LiveOccurrences) (ds : List SelectionDraft) :
    Succeeds (input.finish live ds) := by
  induction ds generalizing live with
  | nil => exact succeeds_pure _
  | cons d ds ih =>
      intro s
      cases hd : d.selectionSet with
      | none =>
          obtain ⟨⟨rest, jobs⟩, s', hrest⟩ := ih live (takeId s)
          exact ⟨(_, jobs), s', (runs_finish_leaf hd).2 ⟨rest, hrest, rfl⟩⟩
      | some set =>
          obtain ⟨⟨rest, jobs⟩, s', hrest⟩ := ih (withoutOccurrencesOf live d)
            ((takeId s).claim input.document set).2
          exact ⟨(_, _), s', (runs_finish_inner hd).2 ⟨_, _, rest, jobs, rfl, hrest, rfl, rfl⟩⟩

end CompileInput

end QueryPlan
