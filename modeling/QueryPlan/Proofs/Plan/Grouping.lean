import QueryPlan.Proofs.Plan.Flatten
import QueryPlan.Proofs.Plan.Ownership

/-!
# Occurrences under one response key

What has been found in selection sets is grouped by response key as it is merged. The entry of
a key is determined by the occurrences under that key, in order: the first says what the field
is and whether it has sub-selections, and each that can be reached adds its clause. When the
drafts of all keys are finished in turn, each takes the occurrences of its own key.
-/

set_option autoImplicit false

namespace QueryPlan

/-! ## What was found under a key -/

/-- An occurrence of a field. -/
structure FoundField where
  node : FieldNode
  field : Field
  /-- When it is reached, if it can be. -/
  clause : Option Clause

namespace Found

/-- The occurrence of a field under a response key. -/
def fieldAt? (key : String) : Found → Option FoundField
  | field node f clause => if node.responseKey = key then some ⟨node, f, clause⟩ else none
  | deferral _ => none

def deferral? : Found → Option PendingDeferral
  | field _ _ _ => none
  | deferral d => some d

end Found

/-- All occurrences under a response key, in order. -/
def occurrencesAt (key : String) (fs : List Found) : List FoundField :=
  fs.filterMap (Found.fieldAt? key)

theorem mem_occurrencesAt {key : String} {fs : List Found} {o : FoundField} :
    o ∈ occurrencesAt key fs ↔
      .field o.node o.field o.clause ∈ fs ∧ o.node.responseKey = key := by
  rw [occurrencesAt, List.mem_filterMap]
  constructor
  · rintro ⟨f, hf, ho⟩
    cases f with
    | field node field clause =>
        rw [Found.fieldAt?, Option.ite_none_right_eq_some, Option.some_inj] at ho
        obtain ⟨hkey, rfl⟩ := ho
        exact ⟨hf, hkey⟩
    | deferral d => cases ho
  · rintro ⟨hf, hkey⟩
    exact ⟨_, hf, if_pos hkey⟩

theorem mem_deferrals_iff {fs : List Found} {d : PendingDeferral} :
    d ∈ fs.filterMap Found.deferral? ↔ .deferral d ∈ fs := by
  rw [List.mem_filterMap]
  constructor
  · rintro ⟨f, hf, hd⟩
    cases f with
    | field node field clause => cases hd
    | deferral e =>
        cases hd
        exact hf
  · exact fun h => ⟨_, h, rfl⟩

/-- The occurrence as it is noted if it can be reached. -/
def FoundField.live? (o : FoundField) : Option Occurrence := o.clause.map fun c => ⟨o.node.id, c⟩

namespace CollectedField

/-- Counts an occurrence; the first one says what the field is. -/
def addFound (f : Option CollectedField) (o : FoundField) : Option CollectedField :=
  some ((f.getD (.ofNode o.node o.field)).add o.node.id o.clause)

/-- The entry that some occurrences make up, of which there is a first. -/
def ofFound (o : FoundField) (os : List FoundField) : CollectedField where
  field := o.field
  arguments := o.node.arguments
  selectionSet := o.node.selectionSet
  condition := ((o :: os).filterMap (·.clause)).foldl IncludeCondition.addClause .never
  live := (o :: os).filterMap (·.live?)
  nodes := (o :: os).map (·.node.id)

theorem add_eq (f : CollectedField) (o : FoundField) :
    f.add o.node.id o.clause =
      { f with
        condition := o.clause.toList.foldl IncludeCondition.addClause f.condition
        live := f.live ++ o.live?.toList
        nodes := f.nodes ++ [o.node.id] } := by
  rcases o with ⟨node, field, _ | clause⟩
  · simp [add, FoundField.live?]
  · simp [add, FoundField.live?]

theorem foldl_addFound (f : CollectedField) (os : List FoundField) :
    os.foldl addFound (some f) =
      some { f with
        condition := (os.filterMap (·.clause)).foldl IncludeCondition.addClause f.condition
        live := f.live ++ os.filterMap (·.live?)
        nodes := f.nodes ++ os.map (·.node.id) } := by
  induction os generalizing f with
  | nil => simp
  | cons o os ih =>
      rw [List.foldl_cons, addFound, Option.getD_some, ih, add_eq]
      cases hc : o.clause with
      | none => simp [FoundField.live?, hc]
      | some c => simp [FoundField.live?, hc]

/-- Merging occurrences one after another makes up the entry of them all. -/
theorem foldl_addFound_none (o : FoundField) (os : List FoundField) :
    (o :: os).foldl addFound none = some (ofFound o os) := by
  rw [List.foldl_cons, addFound, Option.getD_none, foldl_addFound, add_eq, ofFound]
  cases hc : o.clause with
  | none => simp [FoundField.live?, hc, ofNode]
  | some c => simp [FoundField.live?, hc, ofNode]

/-- The selection of some occurrences is included where one of them is reached. -/
theorem isIncluded_ofFound {vars : Variables} {o : FoundField} {os : List FoundField} :
    (ofFound o os).condition.isIncluded vars = true ↔
      ∃ o' ∈ o :: os, o'.clause.any (·.isSatisfied vars) = true := by
  have hnever : IncludeCondition.never.isIncluded vars ≠ true := by simp
  show (((o :: os).filterMap (·.clause)).foldl IncludeCondition.addClause .never).isIncluded vars
    = true ↔ _
  rw [IncludeCondition.isIncluded_foldl_addClause, or_iff_right hnever]
  constructor
  · rintro ⟨c, hc, hsat⟩
    obtain ⟨o', ho', hclause⟩ := List.mem_filterMap.1 hc
    exact ⟨o', ho', by rw [hclause]; exact hsat⟩
  · rintro ⟨o', ho', hsat⟩
    obtain ⟨c, hclause, hsat⟩ := (Option.any_eq_true _ _).1 hsat
    exact ⟨c, List.mem_filterMap.2 ⟨o', ho', hclause⟩, hsat⟩

end CollectedField

namespace Collected

variable {c : Collected} {fs : List Found}

theorem get?_merge (c : Collected) (f : Found) (key : String) :
    (c.merge f).fields.get? key =
      (f.fieldAt? key).toList.foldl CollectedField.addFound (c.fields.get? key) := by
  cases f with
  | deferral d => rfl
  | field node field clause =>
      by_cases hkey : node.responseKey = key
      · subst hkey
        simp only [merge, OrderedMap.get?_insert_self, Found.fieldAt?, if_pos]
        rfl
      · simp only [merge, Found.fieldAt?, if_neg hkey]
        exact OrderedMap.get?_insert_of_ne _ _ fun h => hkey h.symm

/-- The entry of a key comes from the occurrences under it. -/
theorem get?_mergeAll (c : Collected) (fs : List Found) (key : String) :
    (c.mergeAll fs).fields.get? key =
      (occurrencesAt key fs).foldl CollectedField.addFound (c.fields.get? key) := by
  induction fs generalizing c with
  | nil => rfl
  | cons f fs ih =>
      rw [mergeAll, List.foldl_cons, ← mergeAll, ih, get?_merge, ← List.foldl_append]
      congr 1
      cases hf : f.fieldAt? key <;> simp [occurrencesAt, hf]

theorem get?_collected_iff {key : String} {f : CollectedField} :
    (Collected.empty.mergeAll fs).fields.get? key = some f ↔
      ∃ o os, occurrencesAt key fs = o :: os ∧ f = .ofFound o os := by
  rw [get?_mergeAll]
  cases h : occurrencesAt key fs with
  | nil => simp [Collected.empty]
  | cons o os =>
      rw [Collected.empty, OrderedMap.get?_empty, CollectedField.foldl_addFound_none,
        Option.some_inj]
      constructor
      · rintro rfl
        exact ⟨o, os, rfl, rfl⟩
      · rintro ⟨o', os', hcons, rfl⟩
        cases hcons
        rfl

/-- The entries are those of the keys under which something was found. -/
theorem mem_entries_collected_iff {e : String × CollectedField} :
    e ∈ (Collected.empty.mergeAll fs).fields.entries ↔
      ∃ o os, occurrencesAt e.1 fs = o :: os ∧ e = (e.1, .ofFound o os) := by
  rw [← OrderedMap.get?_eq_some_iff, get?_collected_iff]
  simp only [Prod.ext_iff, true_and]

/-- Deferred fragments are set aside in the order in which they are found. -/
theorem deferrals_mergeAll (c : Collected) (fs : List Found) :
    (c.mergeAll fs).deferrals = c.deferrals ++ fs.filterMap Found.deferral? := by
  induction fs generalizing c with
  | nil => exact (List.append_nil _).symm
  | cons f fs ih =>
      rw [mergeAll, List.foldl_cons, ← mergeAll, ih]
      cases f with
      | field node field clause => rfl
      | deferral d => simp [merge, addDeferral, Found.deferral?]

theorem mem_deferrals_collected {d : PendingDeferral} :
    d ∈ (Collected.empty.mergeAll fs).deferrals ↔ .deferral d ∈ fs := by
  rw [deferrals_mergeAll, show Collected.empty.deferrals = [] from rfl, List.nil_append,
    mem_deferrals_iff]

theorem deferrals_eq_nil (h : ∀ d, .deferral d ∉ fs) :
    (Collected.empty.mergeAll fs).deferrals = [] :=
  List.eq_nil_iff_forall_not_mem.2 fun d hd => h d (mem_deferrals_collected.1 hd)

end Collected

/-! ## Finishing what was collected -/

namespace CompileInput

/-- Drafts stand under their response keys. -/
theorem drafts_keyed (c : Collected) (t : ObjectType) :
    ∀ e ∈ (drafts c t).entries, e.1 = e.2.responseKey := by
  intro e he
  obtain ⟨f, -, rfl⟩ := List.mem_map.1 he
  rfl

/-- The sub-selections of an entry, as they are to be compiled under a key. -/
def entryJob (t : ObjectType) (entry : String × CollectedField) (key : SelectionSetId) : ChildJob :=
  ⟨key, t, entry.2.field, entry.1, entry.2.live⟩

/-- The selection stands for an entry, and the reachable occurrences of the entry are those of
its job. -/
structure Becomes (t : ObjectType) (jobs : List ChildJob) (entry : String × CollectedField)
    (s : Selection) : Prop where
  draft : ∃ set, s.toSelectionDraft = { entry.2.draft t entry.1 with selectionSet := set }
  leaf : entry.2.selectionSet = none → s.selectionSet = none
  inner : ∀ {set}, entry.2.selectionSet = some set →
    ∃ key, s.selectionSet = some key ∧ entryJob t entry key ∈ jobs

variable {t : ObjectType} {jobs jobs' : List ChildJob} {selections : List Selection}

theorem Becomes.responseKey {entry : String × CollectedField} {s : Selection}
    (h : Becomes t jobs entry s) : s.responseKey = entry.1 := by
  obtain ⟨set, hdraft⟩ := h.draft
  rw [hdraft]
  rfl

/-- The first node of an entry. -/
def firstNode? (entry : String × CollectedField) : Option FieldId := entry.2.nodes.head?

/-- A draft finds what it would have found, when one with another first node has had its
occurrences. -/
theorem occurrencesOf_without {live : LiveOccurrences} {d e : SelectionDraft}
    (hne : e.nodes.head? ≠ d.nodes.head?) :
    occurrencesOf (withoutOccurrencesOf live d) e = occurrencesOf live e := by
  unfold occurrencesOf withoutOccurrencesOf
  cases hd : d.nodes.head? with
  | none => rfl
  | some n =>
      cases he : e.nodes.head? with
      | none => rfl
      | some n' =>
          rw [hd, he] at hne
          have hfind : (live.filter fun l => l.1 ≠ n).find? (fun l => l.1 = n') =
              live.find? fun l => l.1 = n' := by
            rw [List.find?_filter]
            refine List.find?_congr fun l _ => ?_
            by_cases hl : l.1 = n'
            · simpa [hl] using fun heq : n' = n => hne (congrArg some heq)
            · simp [hl]
          simp only [Option.bind_some, hfind]

theorem childJob_without {live : LiveOccurrences} {d e : SelectionDraft} {key : SelectionSetId}
    (hne : e.nodes.head? ≠ d.nodes.head?) :
    childJob (withoutOccurrencesOf live d) e key = childJob live e key := by
  rw [childJob, childJob, occurrencesOf_without hne]

/-- The selection stands for a draft, and the occurrences that the draft finds are those of its
job. -/
structure StandsFor (live : LiveOccurrences) (jobs : List ChildJob) (d : SelectionDraft)
    (s : Selection) : Prop where
  draft : ∃ set, s.toSelectionDraft = { d with selectionSet := set }
  leaf : d.selectionSet = none → s.selectionSet = none
  inner : ∀ {set}, d.selectionSet = some set →
    ∃ key, s.selectionSet = some key ∧ childJob live d key ∈ jobs

theorem StandsFor.mono {live live' : LiveOccurrences} {d : SelectionDraft} {s : Selection}
    (h : StandsFor live jobs d s) (hsub : jobs ⊆ jobs')
    (hlive : ∀ key, childJob live d key = childJob live' d key) :
    StandsFor live' jobs' d s where
  draft := h.draft
  leaf := h.leaf
  inner hset := by
    obtain ⟨key, hkey, hjob⟩ := h.inner hset
    exact ⟨key, hkey, hsub (hlive key ▸ hjob)⟩

/-- Drafts with different first nodes take nothing from each other; and each job is that of a
draft. -/
theorem finished_standsFor {live : LiveOccurrences} {ds : List SelectionDraft}
    (hnodup : (ds.map fun d => d.nodes.head?).Nodup) (h : Finished live ds selections jobs) :
    List.Forall₂ (StandsFor live jobs) ds selections ∧
      ∀ job ∈ jobs, ∃ d ∈ ds, d.selectionSet ≠ none ∧ job = childJob live d job.key := by
  induction h with
  | nil => exact ⟨.nil, fun _ hjob => absurd hjob List.not_mem_nil⟩
  | leaf hd _ ih =>
      obtain ⟨hforall, hjobs⟩ := ih (List.nodup_cons.1 hnodup).2
      refine ⟨.cons ⟨⟨_, rfl⟩, fun _ => hd, fun hset => ?_⟩ hforall, fun job hjob => ?_⟩
      · exact absurd (hset.symm.trans hd) (by simp)
      · obtain ⟨e, he, hjob'⟩ := hjobs job hjob
        exact ⟨e, List.mem_cons_of_mem _ he, hjob'⟩
  | @inner live d ds rest jobs id set key hd _ ih =>
      rw [List.map_cons, List.nodup_cons] at hnodup
      obtain ⟨hforall, hjobs⟩ := ih hnodup.2
      -- the other drafts have other first nodes, so nothing of theirs was taken
      have hother : ∀ e ∈ ds, ∀ key,
          childJob (withoutOccurrencesOf live d) e key = childJob live e key := fun e he key =>
        childJob_without fun heq => hnodup.1 (heq ▸ List.mem_map_of_mem he)
      refine ⟨.cons ⟨⟨_, rfl⟩, fun hset => ?_, fun _ => ⟨key, rfl, List.mem_cons_self⟩⟩ ?_,
        fun job hmem => ?_⟩
      · exact absurd (hset.symm.trans hd) (by simp)
      · exact ((List.forall₂_and_left _ _).2 ⟨fun _ h => h, hforall⟩).imp fun e s ⟨he, hs⟩ =>
          hs.mono (List.subset_cons_self _ _) (hother e he)
      · rcases List.mem_cons.1 hmem with rfl | hmem
        · exact ⟨d, List.mem_cons_self, by simp [hd], rfl⟩
        · obtain ⟨e, he, hset, hjob⟩ := hjobs job hmem
          exact ⟨e, List.mem_cons_of_mem _ he, hset, hjob.trans (hother e he _)⟩

/-- The reachable occurrences of the entry are found by its first node. -/
def Finds (live : LiveOccurrences) (entry : String × CollectedField) : Prop :=
  ∃ n, firstNode? entry = some n ∧ live.find? (fun l => l.1 = n) = some (n, entry.2.live)

/-- The draft of an entry has the occurrences of the entry. -/
theorem Finds.occurrencesOf {live : LiveOccurrences} {e : String × CollectedField}
    (h : Finds live e) : occurrencesOf live (e.2.draft t e.1) = e.2.live := by
  obtain ⟨n, hn, hfind⟩ := h
  have hhead : (e.2.draft t e.1).nodes.head? = some n := hn
  rw [CompileInput.occurrencesOf, hhead, Option.bind_some, hfind]

/-- Each entry finds its own occurrences, since no two entries have the same first node; and
each job is that of an entry. -/
theorem finished_becomes {entries : List (String × CollectedField)} {live : LiveOccurrences}
    (hlive : ∀ e ∈ entries, Finds live e) (hnodup : (entries.map firstNode?).Nodup)
    (h : Finished live (entries.map fun e => e.2.draft t e.1) selections jobs) :
    List.Forall₂ (Becomes t jobs) entries selections ∧
      ∀ job ∈ jobs, ∃ e ∈ entries, e.2.selectionSet ≠ none ∧ job = entryJob t e job.key := by
  have hjob : ∀ e ∈ entries, ∀ key, childJob live (e.2.draft t e.1) key = entryJob t e key := by
    intro e he key
    rw [childJob, (hlive e he).occurrencesOf]
    rfl
  obtain ⟨hforall, hjobs⟩ := finished_standsFor (by rwa [List.map_map]) h
  refine ⟨?_, fun job hmem => ?_⟩
  · rw [List.forall₂_map_left_iff] at hforall
    refine ((List.forall₂_and_left _ _).2 ⟨fun _ h => h, hforall⟩).imp fun e s ⟨he, hs⟩ =>
      ⟨hs.draft, hs.leaf, fun hset => ?_⟩
    obtain ⟨key, hkey, hmem⟩ := hs.inner hset
    exact ⟨key, hkey, hjob e he key ▸ hmem⟩
  · obtain ⟨d, hd, hset, heq⟩ := hjobs job hmem
    obtain ⟨e, he, rfl⟩ := List.mem_map.1 hd
    exact ⟨e, he, hset, heq.trans (hjob e he _)⟩

/-- The occurrences of an entry are found by its first node. -/
theorem find?_live {es : List (String × CollectedField)} {e : String × CollectedField}
    {n : FieldId} (he : e ∈ es) (hn : firstNode? e = some n)
    (hnodup : (es.map firstNode?).Nodup) :
    ((es.map Prod.snd).filterMap fun f => f.nodes.head?.map fun n => (n, f.live)).find?
      (fun l => l.1 = n) = some (n, e.2.live) := by
  induction es with
  | nil => exact absurd he List.not_mem_nil
  | cons e' es ih =>
      rw [List.map_cons, List.nodup_cons] at hnodup
      rcases List.mem_cons.1 he with rfl | he
      · have hhead : e.2.nodes.head? = some n := hn
        simp [hhead]
      -- this entry has another first node, and is passed over
      · have hne : e'.2.nodes.head? ≠ some n := fun hhead =>
          hnodup.1 (List.mem_map.2 ⟨e, he, hn.trans hhead.symm⟩)
        rw [← ih he hnodup.2, List.map_cons]
        cases hhead : e'.2.nodes.head? with
        | none => rw [List.filterMap_cons_none (by rw [hhead]; rfl)]
        | some n' =>
            rw [List.filterMap_cons_some (by rw [hhead]; rfl), List.find?_cons_of_neg]
            simpa using fun heq : n' = n => hne (hhead.trans (congrArg some heq))

/-- Entries whose first nodes have their keys as response keys have different first nodes. -/
theorem nodup_firstNodes {α : Type} {m : OrderedMap String α}
    {node? : FieldId → Option FieldNode} {first : String × α → Option FieldId}
    (hfirst : ∀ e ∈ m.entries, ∃ node, node? node.id = some node ∧ node.responseKey = e.1 ∧
      first e = some node.id) : (m.entries.map first).Nodup := by
  refine (List.Nodup.of_map _ m.nodup_keys).map_on fun e he e' he' heq => ?_
  obtain ⟨node, hnode, hkey, hn⟩ := hfirst e he
  obtain ⟨node', hnode', hkey', hn'⟩ := hfirst e' he'
  rw [hn, hn', Option.some_inj] at heq
  rw [heq, hnode', Option.some_inj] at hnode
  have hk : e.1 = e'.1 := by rw [← hkey, ← hkey', hnode]
  have hv := OrderedMap.get?_eq_some_iff.2 he
  rw [hk, OrderedMap.get?_eq_some_iff.2 he', Option.some_inj] at hv
  exact Prod.ext hk hv.symm

variable {fs : List Found}

/-- The entries collected have a first node each, no two of them the same. -/
theorem firstNode?_collected {node? : FieldId → Option FieldNode}
    (hfs : ∀ {node field clause}, Found.field node field clause ∈ fs →
      node? node.id = some node) :
    (∀ e ∈ (Collected.empty.mergeAll fs).fields.entries,
      ∃ node, node? node.id = some node ∧ node.responseKey = e.1 ∧
        firstNode? e = some node.id) ∧
    ((Collected.empty.mergeAll fs).fields.entries.map firstNode?).Nodup := by
  have hfirst : ∀ e ∈ (Collected.empty.mergeAll fs).fields.entries,
      ∃ node, node? node.id = some node ∧ node.responseKey = e.1 ∧
        firstNode? e = some node.id := by
    intro e he
    obtain ⟨o, os, hocc, hf⟩ := Collected.get?_collected_iff.1 (OrderedMap.get?_eq_some_iff.2 he)
    have ho : o ∈ occurrencesAt e.1 fs := hocc ▸ List.mem_cons_self
    obtain ⟨hmem, hkey⟩ := mem_occurrencesAt.1 ho
    exact ⟨o.node, hfs hmem, hkey, by rw [firstNode?, hf]; rfl⟩
  exact ⟨hfirst, nodup_firstNodes hfirst⟩

/-- Finished in turn, the drafts of all that was found keep to their own occurrences. -/
theorem finished_collected {node? : FieldId → Option FieldNode}
    (hfs : ∀ {node field clause}, Found.field node field clause ∈ fs →
      node? node.id = some node)
    (h : Finished (liveOccurrences (Collected.empty.mergeAll fs))
      (drafts (Collected.empty.mergeAll fs) t).values selections jobs) :
    List.Forall₂ (Becomes t jobs) (Collected.empty.mergeAll fs).fields.entries selections ∧
      ∀ job ∈ jobs, ∃ e ∈ (Collected.empty.mergeAll fs).fields.entries,
        e.2.selectionSet ≠ none ∧ job = entryJob t e job.key := by
  obtain ⟨hfirst, hnodup⟩ := firstNode?_collected hfs
  have hentries : Finished (liveOccurrences (Collected.empty.mergeAll fs))
      ((Collected.empty.mergeAll fs).fields.entries.map fun e => e.2.draft t e.1)
      selections jobs := by
    simpa [drafts, OrderedMap.values, OrderedMap.mapValues, Function.comp_def] using h
  refine finished_becomes (fun e he => ?_) hnodup hentries
  obtain ⟨node, -, -, hn⟩ := hfirst e he
  exact ⟨node.id, hn, find?_live he hn hnodup⟩

end CompileInput

end QueryPlan
