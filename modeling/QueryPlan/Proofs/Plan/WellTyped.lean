import QueryPlan.Proofs.Plan.Tree

/-!
# Walks through a plan

A reader of a plan looks up the root and then, below each selection, its key and one of the
concrete types that its field can have. Every selection set of a plan was made by some build, and
so was every set below it; hence no such lookup fails, and whatever is found is typed: it is for
the type that was asked for, and all of its selections are fields of that type.
-/

set_option autoImplicit false

namespace QueryPlan

variable {σ : Type} {input : CompileInput σ}

/-- The selections of a set are fields of its type, under pairwise distinct response keys. -/
structure SelectionSet.WellTyped (t : ObjectType) (s : SelectionSet) : Prop where
  objectType : s.objectType = t
  nodup : s.responseKeys.Nodup
  declaringType : ∀ selection ∈ s.selections, selection.declaringType = t
  field : ∀ selection ∈ s.selections, t.field? selection.field.name = some selection.field

namespace CompileInput

/-! ## Finished drafts -/

/-- Finishing a draft gives it an id, and a key if it has sub-selections. -/
theorem Finished.forall₂ {live : LiveOccurrences} {ds : List SelectionDraft}
    {selections : List Selection} {jobs : List ChildJob}
    (h : Finished live ds selections jobs) :
    List.Forall₂ (fun d s => ∃ set, set.isSome = d.selectionSet.isSome ∧
      s.toSelectionDraft = { d with selectionSet := set }) ds selections := by
  induction h with
  | nil => exact .nil
  | leaf _ _ ih => exact .cons ⟨_, rfl, rfl⟩ ih
  | inner hd _ ih => exact .cons ⟨_, by rw [hd]; rfl, rfl⟩ ih

theorem Finished.responseKeys {live : LiveOccurrences} {ds : List SelectionDraft}
    {selections : List Selection} {jobs : List ChildJob}
    (h : Finished live ds selections jobs) :
    selections.map (·.responseKey) = ds.map (·.responseKey) := by
  induction h with
  | nil => rfl
  | leaf _ _ ih => rw [List.map_cons, List.map_cons, ih]
  | inner _ _ ih => rw [List.map_cons, List.map_cons, ih]

/-! ## What was made is typed -/

section Made

variable {variants : VariantMap} {below : BuildTask σ → SelectionSet → Prop}
  {task : BuildTask σ} {set : SelectionSet}

theorem Made.wellTyped (h : input.Made variants below task set) :
    set.WellTyped task.objectType := by
  obtain ⟨-, -, -, hfits, hkeyed, hfinished, -⟩ := h
  rename_i m deferred selections jobs
  have hdraft : ∀ s ∈ selections, ∃ d ∈ m.values, ∃ set, set.isSome = d.selectionSet.isSome ∧
      s.toSelectionDraft = { d with selectionSet := set } := fun s hs =>
    exists_of_mem_right hfinished.forall₂ hs
  -- the selections stand under the keys of the map
  have hkeys : selections.map (·.responseKey) = m.keys := by
    rw [hfinished.responseKeys, OrderedMap.values, OrderedMap.keys, List.map_map]
    exact List.map_congr_left fun e he => (hkeyed e he).symm
  refine ⟨rfl, ?_, fun s hs => ?_, fun s hs => ?_⟩
  · rw [SelectionSet.responseKeys, hkeys]
    exact m.nodup_keys
  · obtain ⟨d, hd, set, -, hset⟩ := hdraft s hs
    rw [hset]
    exact (hfits d hd).1
  · obtain ⟨d, hd, set, -, hset⟩ := hdraft s hs
    rw [hset]
    exact (hfits d hd).2

/-- Below a selection, one set was made for each type that its field can have. -/
theorem Made.child (h : input.Made variants below task set) {s : Selection}
    {key : SelectionSetId} (hs : s ∈ set.selections) (hkey : s.selectionSet = some key) :
    ∃ v, variants.get? key = some v ∧
      List.Forall₂ (fun t e => e.1 = t.name ∧ ∃ task', task'.objectType = t ∧
          task.optimizers ⊆ task'.optimizers ∧ below task' e.2)
        (input.schema.possibleTypes s.field.type.innermost) v.sets.entries := by
  obtain ⟨-, -, -, -, -, hfinished, hchildren⟩ := h
  obtain ⟨job, hjob, rfl, -, hfield, -⟩ := hfinished.job hs hkey
  obtain ⟨v, view, -, hv, hforall⟩ := hchildren job hjob
  exact ⟨v, hv, hfield ▸ hforall.imp fun t e he =>
    ⟨he.1, _, rfl, List.subset_append_left _ _, he.2⟩⟩

theorem MadeWithin.made {fuel : Nat} (h : input.MadeWithin variants fuel task set) :
    ∃ n, input.Made variants (input.MadeWithin variants n) task set := by
  cases fuel with
  | zero => exact h.elim
  | succ n => exact ⟨n, h⟩

/-- The set of a deferred fragment was made for the same type with the same optimizers, at any
depth. -/
theorem MadeWithin.part {fuel : Nat} (h : input.MadeWithin variants fuel task set)
    {part : SelectionSet} (hpart : part ∈ set.parts) :
    ∃ n task', task'.objectType = task.objectType ∧ task'.optimizers = task.optimizers ∧
      input.MadeWithin variants n task' part := by
  induction fuel generalizing task set with
  | zero => exact h.elim
  | succ fuel ih =>
      rw [SelectionSet.parts_eq] at hpart
      rcases List.mem_cons.1 hpart with rfl | hpart
      · exact ⟨fuel + 1, task, rfl, rfl, h⟩
      · obtain ⟨-, hdeferrals, -, -, -, -, -⟩ := h
        obtain ⟨e, he, hpart⟩ := List.mem_flatMap.1 hpart
        obtain ⟨d, -, set, hset, rfl⟩ := exists_of_mem_right hdeferrals he
        have hsub := ih hset hpart
        exact hsub

end Made

end CompileInput

/-! ## Looking up what a plan has -/

namespace Plan

variable {p : Plan} {key : SelectionSetId} {type : String}

theorem variantsAt_eq_ok_iff {v : SelectionVariants} :
    p.variantsAt key = .ok v ↔ p.variants.get? key = some v := by
  unfold variantsAt
  cases p.variants.get? key <;> simp

theorem selectionSet_eq_ok_iff {set : SelectionSet} :
    p.selectionSet key type = .ok set ↔
      ∃ v, p.variants.get? key = some v ∧ v.sets.get? type = some set := by
  unfold selectionSet variantsAt
  cases p.variants.get? key with
  | none => simp
  | some v =>
      dsimp only
      cases hset : v.sets.get? type with
      | none => simp [hset]
      | some set => simp [hset]

section Lookup

variable {v : SelectionVariants} {R : ObjectType → SelectionSet → Prop} {ts : List ObjectType}

/-! What stands under a key for some types, one set each, is found by the names of the types. -/

theorem exists_selectionSet (hv : p.variants.get? key = some v)
    (hsets : List.Forall₂ (fun t e => e.1 = t.name ∧ R t e.2) ts v.sets.entries)
    {t : ObjectType} (ht : t ∈ ts) : ∃ set, p.selectionSet key t.name = .ok set ∧ R t set := by
  obtain ⟨e, he, hname, hR⟩ := exists_of_mem_left hsets ht
  have hset : v.sets.get? t.name = some e.2 := by
    rw [OrderedMap.get?_eq_some_iff, ← hname]
    exact he
  exact ⟨e.2, selectionSet_eq_ok_iff.2 ⟨v, hv, hset⟩, hR⟩

/-- A set that can be looked up stands under a key, among what stands there. -/
theorem mem_keys_of_selectionSet {set : SelectionSet} (h : p.selectionSet key type = .ok set) :
    key ∈ p.variants.keys := by
  obtain ⟨v, hv, -⟩ := selectionSet_eq_ok_iff.1 h
  exact OrderedMap.mem_keys_iff.2 ⟨v, hv⟩

theorem mem_entries_of_selectionSet (hv : p.variants.get? key = some v) {set : SelectionSet}
    (h : p.selectionSet key type = .ok set) : (type, set) ∈ v.sets.entries := by
  obtain ⟨v', hv', hset⟩ := selectionSet_eq_ok_iff.1 h
  rw [hv, Option.some_inj] at hv'
  subst hv'
  exact OrderedMap.get?_eq_some_iff.1 hset

theorem exists_type_of_selectionSet (hv : p.variants.get? key = some v)
    (hsets : List.Forall₂ (fun t e => e.1 = t.name ∧ R t e.2) ts v.sets.entries)
    {set : SelectionSet} (h : p.selectionSet key type = .ok set) :
    ∃ t ∈ ts, t.name = type ∧ R t set := by
  obtain ⟨t, ht, hname, hR⟩ := exists_of_mem_right hsets (mem_entries_of_selectionSet hv h)
  exact ⟨t, ht, hname.symm, hR⟩

end Lookup

end Plan

namespace CompileInput

variable {bound : Nat} {name : Option String} {p : Plan} {t : ObjectType} {set : SelectionSet}

/-- The root of a plan can be looked up, and was made from the root of the operation. -/
theorem Compiled.exists_root (h : input.Compiled bound name p) :
    ∃ set, p.rootSelectionSet = .ok set ∧
      input.MadeWithin p.variants bound (input.rootTask p.root p.rootType) set := by
  obtain ⟨v, set, hv, hentries, hmade⟩ := h.root
  have hset : v.sets.get? p.rootType.name = some set := by
    rw [OrderedMap.get?_eq_some_iff, hentries]
    exact List.mem_singleton_self _
  exact ⟨set, Plan.selectionSet_eq_ok_iff.2 ⟨v, hv, hset⟩, hmade⟩

/-- The set was made for a type of the schema, with all optimizers that are registered for every
set. -/
structure MadeFor (input : CompileInput σ) (p : Plan) (t : ObjectType) (set : SelectionSet) :
    Prop where
  objectType : input.schema.objectType? t.name = some t
  made : ∃ fuel task, task.objectType = t ∧ input.pipeline.general ⊆ task.optimizers ∧
    input.MadeWithin p.variants fuel task set

theorem MadeFor.part (h : input.MadeFor p t set) {part : SelectionSet} (hpart : part ∈ set.parts) :
    input.MadeFor p t part := by
  obtain ⟨ht, fuel, task, rfl, hgeneral, hmade⟩ := h
  obtain ⟨n, task', htask, hoptimizers, hmade'⟩ := hmade.part hpart
  exact ⟨ht, n, task', htask, hoptimizers ▸ hgeneral, hmade'⟩

theorem MadeFor.wellTyped (h : input.MadeFor p t set) : set.WellTyped t := by
  obtain ⟨-, fuel, task, rfl, -, hmade⟩ := h
  obtain ⟨n, hmade⟩ := hmade.made
  exact hmade.wellTyped

/-- Below a selection, one set was made for each type that its field can have. -/
theorem MadeFor.child (hschema : input.schema.WellNamed) (h : input.MadeFor p t set)
    {s : Selection} {key : SelectionSetId} (hs : s ∈ set.selections)
    (hkey : s.selectionSet = some key) :
    ∃ v, p.variants.get? key = some v ∧
      List.Forall₂ (fun t e => e.1 = t.name ∧ input.MadeFor p t e.2)
        (input.schema.possibleTypes s.field.type.innermost) v.sets.entries := by
  obtain ⟨-, fuel, task, rfl, hgeneral, hmade⟩ := h
  obtain ⟨n, hmade⟩ := hmade.made
  obtain ⟨v, hv, hforall⟩ := hmade.child hs hkey
  refine ⟨v, hv, ((List.forall₂_and_left _ _).2 ⟨fun t ht => ht, hforall⟩).imp ?_⟩
  rintro t e ⟨ht, hname, task', htask, hoptimizers, hmade'⟩
  exact ⟨hname, hschema.objectType?_of_possible ht, n, task', htask,
    List.Subset.trans hgeneral hoptimizers, hmade'⟩

/-- Whatever is stored under a key that is reached was made for the type it is stored for. -/
theorem Compiled.madeFor (hschema : input.schema.WellNamed) (h : input.Compiled bound name p)
    {key : SelectionSetId} (hkey : VariantMap.Reaches p.variants [p.root] key) :
    ∃ v, p.variants.get? key = some v ∧
      ∀ e ∈ v.sets.entries, ∃ t, e.1 = t.name ∧ input.MadeFor p t e.2 := by
  induction hkey with
  | root hk =>
      obtain rfl := List.mem_singleton.1 hk
      obtain ⟨v, set, hv, hentries, hmade⟩ := h.root
      refine ⟨v, hv, fun e he => ⟨p.rootType, ?_⟩⟩
      rw [hentries, List.mem_singleton] at he
      exact he ▸ ⟨rfl, hschema.objectType?_of_rootType h.rootType, bound, _, rfl,
        List.Subset.refl _, hmade⟩
  | child _ hw hset hc ih =>
      obtain ⟨v, hv, hentries⟩ := ih
      rw [hw, Option.some_inj] at hv
      subst hv
      -- the key is owned by a selection in a part of a stored set
      obtain ⟨e, he, rfl⟩ := List.mem_map.1 hset
      obtain ⟨t, -, hmade⟩ := hentries e he
      obtain ⟨part, hpart, hc⟩ := List.mem_flatMap.1 hc
      obtain ⟨s, hs, hsc⟩ := List.mem_filterMap.1 hc
      obtain ⟨v', hv', hforall⟩ := (hmade.part hpart).child hschema hs hsc
      refine ⟨v', hv', fun e' he' => ?_⟩
      obtain ⟨t', -, hname, hmade'⟩ := exists_of_mem_right hforall he'
      exact ⟨t', hname, hmade'⟩

/-- A set that can be looked up was made for the type that it is looked up for. -/
theorem Compiled.madeFor_of_selectionSet (hschema : input.schema.WellNamed)
    (h : input.Compiled bound name p) {key : SelectionSetId} {type : String}
    (hset : p.selectionSet key type = .ok set) : ∃ t, t.name = type ∧ input.MadeFor p t set := by
  have hreached := h.isTree.reached key (Plan.mem_keys_of_selectionSet hset)
  obtain ⟨v, hv, hentries⟩ := h.madeFor hschema hreached
  obtain ⟨t, hname, hmade⟩ := hentries _ (Plan.mem_entries_of_selectionSet hv hset)
  exact ⟨t, hname.symm, hmade⟩

/-- What stands below a selection: exactly the types that its field can have, in order. -/
theorem MadeFor.lookup (hschema : input.schema.WellNamed) (h : input.MadeFor p t set)
    {s : Selection} {key : SelectionSetId} (hs : s ∈ set.selections)
    (hkey : s.selectionSet = some key) :
    ∃ v, p.variantsAt key = .ok v ∧
      v.possibleTypes = input.schema.possibleTypes s.field.type.innermost ∧
      ∀ type, (∃ below, p.selectionSet key type = .ok below) ↔
        ∃ t ∈ input.schema.possibleTypes s.field.type.innermost, t.name = type := by
  obtain ⟨v, hv, hforall⟩ := h.child hschema hs hkey
  refine ⟨v, Plan.variantsAt_eq_ok_iff.2 hv, ?_, fun type => ⟨?_, ?_⟩⟩
  -- the sets stand in the order of the types that they were made for
  · rw [SelectionVariants.possibleTypes, OrderedMap.values, List.map_map]
    refine (List.forall₂_eq_eq_eq ▸ List.forall₂_map_right_iff.2 (hforall.imp ?_) :
      input.schema.possibleTypes s.field.type.innermost = _).symm
    exact fun t e he => he.2.wellTyped.objectType.symm
  · rintro ⟨below, hbelow⟩
    obtain ⟨t, ht, hname, -⟩ := Plan.exists_type_of_selectionSet hv hforall hbelow
    exact ⟨t, ht, hname⟩
  · rintro ⟨t, ht, rfl⟩
    obtain ⟨below, hbelow, -⟩ := Plan.exists_selectionSet hv hforall ht
    exact ⟨below, hbelow⟩

/-- **No walk through a plan fails, and all it meets is typed.** The root can be looked up. Each
stored selection set, and each of its deferred fragments, is for the type of the schema that it
is stored under, with pairwise distinct response keys and only fields of that type. The key of a
selection leads to the types that its field can have, in order, and to no others. -/
theorem wellTyped_of_compileWithin (hschema : input.schema.Built)
    (hdocument : input.document.Built) (hlawful : input.pipeline.Lawful) {memory memory' : σ}
    (h : input.compileWithin bound name memory = (.ok p, memory')) :
    (∃ set, p.rootSelectionSet = .ok set) ∧
    ∀ key type set, p.selectionSet key type = .ok set → ∀ part ∈ set.parts,
      (∃ t, input.schema.objectType? type = some t ∧ part.WellTyped t) ∧
      ∀ s ∈ part.selections, ∀ child, s.selectionSet = some child →
        ∃ v, p.variantsAt child = .ok v ∧
          v.possibleTypes = input.schema.possibleTypes s.field.type.innermost ∧
          ∀ type', (∃ below, p.selectionSet child type' = .ok below) ↔
            ∃ t ∈ input.schema.possibleTypes s.field.type.innermost, t.name = type' := by
  have hnamed := hschema.wellNamed
  have hcompiled := compiled_of_compileWithin hschema hdocument hlawful h
  constructor
  · obtain ⟨set, hset, -⟩ := hcompiled.exists_root
    exact ⟨set, hset⟩
  · intro key type set hset part hpart
    obtain ⟨t, rfl, hmade⟩ := hcompiled.madeFor_of_selectionSet hnamed hset
    have hmadePart := hmade.part hpart
    exact ⟨⟨t, hmade.objectType, hmadePart.wellTyped⟩,
      fun s hs child hchild => hmadePart.lookup hnamed hs hchild⟩

end CompileInput

namespace Linked

theorem wellTyped_linked : ∃ p memory, Linked.input.compileWithin 10 none [] = (.ok p, memory) ∧
    (∃ set, p.rootSelectionSet = .ok set) ∧
    ∀ key type set, p.selectionSet key type = .ok set → ∀ part ∈ set.parts,
      (∃ t, schema.objectType? type = some t ∧ part.WellTyped t) ∧
      ∀ s ∈ part.selections, ∀ child, s.selectionSet = some child →
        ∃ v, p.variantsAt child = .ok v ∧
          v.possibleTypes = schema.possibleTypes s.field.type.innermost ∧
          ∀ type', (∃ below, p.selectionSet child type' = .ok below) ↔
            ∃ t ∈ schema.possibleTypes s.field.type.innermost, t.name = type' := by
  obtain ⟨p, memory, h⟩ :=
    exists_eq_ok (x := Linked.input.compileWithin 10 none []) (by decide +kernel)
  exact ⟨p, memory, h, CompileInput.wellTyped_of_compileWithin schema_built document_built
    pipeline_lawful h⟩

end Linked

end QueryPlan
