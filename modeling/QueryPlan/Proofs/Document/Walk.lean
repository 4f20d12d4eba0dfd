import QueryPlan.Proofs.Document.Acyclic
import QueryPlan.Proofs.Document.Raised

/-!
# The walk of a search for cycles

A search looks for spreads in selection sets, and goes from each spread to the body of its fragment
at once. `Walks` is this way of going about it, set by set and without fuel, along with a record of
the selection sets that were walked: a search has come to an end where there is a record of it. The
search of an index is such a walk, and there is no other one (`exists_walks_search`,
`Walks.unique`).

Whatever is walked has a reason. A set was called for at the start, or stands in a set that is
walked, or is the body of a fragment that is finished then, and for every reason it is walked once
(`Walks.balance`). No set is the body of two fragments, or the body of one and part of another set.
So each body is walked as often as its fragment is finished, which is once.
-/

set_option autoImplicit false

namespace QueryPlan

open QueryPlan.Syntax

/-- Where a search goes: into a selection set, or to a fragment. -/
inductive CycleSearch.Stop
  | set (id : SelectionSetId)
  | fragment (name : String)
deriving DecidableEq, Repr

namespace SyntaxArena

open CycleSearch (Stop)

variable {a : SyntaxArena}

/-- Where a selection leads a search, if it leads anywhere. -/
def stop? (a : SyntaxArena) : SelectionNode → Option Stop
  | .field id => (a.innerSet? (.field id)).map .set
  | .spread id => (a.spread? id).map fun node => .fragment node.fragmentName
  | .inlineFragment id => (a.innerSet? (.inlineFragment id)).map .set

/-- Where the selections of a set lead a search, in order. -/
def stops (a : SyntaxArena) (id : SelectionSetId) : List Stop :=
  match a.selectionSet? id with
  | none => []
  | some set => set.selections.filterMap a.stop?

/-- The names that are spread where a search goes. -/
def namesAt (a : SyntaxArena) (fuel : Nat) : Stop → List String
  | .set id => a.spreadNames fuel id
  | .fragment name => [name]

theorem spreadNames_eq_flatMap (a : SyntaxArena) (fuel : Nat) (id : SelectionSetId) :
    a.spreadNames (fuel + 1) id = (a.stops id).flatMap (a.namesAt fuel) := by
  rw [spreadNames, stops]
  cases a.selectionSet? id with
  | none => rfl
  | some set =>
      dsimp only
      induction set.selections with
      | nil => rfl
      | cons sel rest ih =>
          rw [List.flatMap_cons, ih, List.filterMap_cons]
          cases sel with
          | field id =>
              dsimp only [stop?, innerSet?]
              cases (a.field? id).bind FieldNode.selectionSet <;> rfl
          | spread id =>
              dsimp only [stop?]
              cases a.spread? id <;> rfl
          | inlineFragment id =>
              dsimp only [stop?, innerSet?]
              cases a.inlineFragment? id <;> rfl

/-- A set that a search goes on to stands in a selection of the set that it comes from. -/
theorem exists_selection_of_mem_stops {id inner : SelectionSetId} (h : .set inner ∈ a.stops id) :
    ∃ set sel, a.selectionSet? id = some set ∧ sel ∈ set.selections ∧
      a.innerSet? sel = some inner := by
  unfold stops at h
  cases hset : a.selectionSet? id with
  | none =>
      rw [hset] at h
      cases h
  | some set =>
      rw [hset] at h
      obtain ⟨sel, hsel, hstop⟩ := List.mem_filterMap.1 h
      refine ⟨set, sel, rfl, hsel, ?_⟩
      cases sel with
      | spread id => simp [stop?] at hstop
      | _ => simpa [stop?] using hstop

theorem mem_enclosed_of_innerSet? {sel : SelectionNode} {inner : SelectionSetId}
    (h : a.innerSet? sel = some inner) : inner ∈ a.enclosed := by
  cases sel with
  | spread id => cases h
  | field id =>
      obtain ⟨node, hnode, hinner⟩ := Option.bind_eq_some_iff.1 h
      have hmem : node ∈ a.fields := mem_iff_atIndex?.2 ⟨_, hnode⟩
      exact List.mem_append_left _
        (List.mem_filterMap.2 ⟨node, Array.mem_toList_iff.2 hmem, hinner⟩)
  | inlineFragment id =>
      obtain ⟨node, hnode, rfl⟩ := Option.map_eq_some_iff.1 h
      have hmem : node ∈ a.inlineFragments := mem_iff_atIndex?.2 ⟨_, hnode⟩
      exact List.mem_append_right _ (List.mem_map_of_mem (Array.mem_toList_iff.2 hmem))

end SyntaxArena

/-! ## Walks -/

namespace CycleSearch

/-- From the end of a path a search makes some stops in turn, and gets from the first state to the
second one. On the way it walks the selection sets that are listed. -/
inductive Walks (m : OrderedMap String FragmentNode) (a : SyntaxArena) :
    List String → CycleSearch → List Stop → List SelectionSetId → CycleSearch → Prop
  | nil {path s} : Walks m a path s [] [] s
  | set {path s id walked s₁ rest walked' s'} : Walks m a path s (a.stops id) walked s₁ →
      Walks m a path s₁ rest walked' s' →
      Walks m a path s (.set id :: rest) (id :: walked ++ walked') s'
  | closes {path s name rest walked s'} : name ∈ path →
      Walks m a path (s.report (closing path name)) rest walked s' →
      Walks m a path s (.fragment name :: rest) walked s'
  | passes {path s name rest walked s'} : name ∉ path → (name ∈ s.finished ∨ m.get? name = none) →
      Walks m a path s rest walked s' → Walks m a path s (.fragment name :: rest) walked s'
  | explores {path s name f walked s₁ rest walked' s'} : name ∉ path → name ∉ s.finished →
      m.get? name = some f → Walks m a (path ++ [name]) s [.set f.selectionSet] walked s₁ →
      Walks m a path (s₁.finish name) rest walked' s' →
      Walks m a path s (.fragment name :: rest) (walked ++ walked') s'

variable {m : OrderedMap String FragmentNode} {a : SyntaxArena} {path : List String}
  {s s₁ s' : CycleSearch} {stops stops' : List Stop} {walked walked' : List SelectionSetId}

theorem Walks.append (h : Walks m a path s stops walked s₁)
    (h' : Walks m a path s₁ stops' walked' s') :
    Walks m a path s (stops ++ stops') (walked ++ walked') s' := by
  induction h with
  | nil => exact h'
  | set hset _ _ ih =>
      rw [List.append_assoc]
      exact .set hset (ih h')
  | closes hmem _ ih => exact .closes hmem (ih h')
  | passes hnew hpassed _ ih => exact .passes hnew hpassed (ih h')
  | explores hnew hopen hf hbody _ _ ih =>
      rw [List.append_assoc]
      exact .explores hnew hopen hf hbody (ih h')

/-- A search goes on in one way only. -/
theorem Walks.unique (h : Walks m a path s stops walked s₁)
    (h' : Walks m a path s stops walked' s') : walked = walked' ∧ s₁ = s' := by
  induction h generalizing walked' s' with
  | nil =>
      cases h'
      exact ⟨rfl, rfl⟩
  | set _ _ ih ih' =>
      cases h' with
      | set hset hrest =>
          obtain ⟨rfl, rfl⟩ := ih hset
          obtain ⟨rfl, rfl⟩ := ih' hrest
          exact ⟨rfl, rfl⟩
  | closes hmem _ ih =>
      cases h' with
      | closes _ hrest => exact ih hrest
      | passes hnew => exact absurd hmem hnew
      | explores hnew => exact absurd hmem hnew
  | passes hnew hpassed _ ih =>
      cases h' with
      | closes hmem => exact absurd hmem hnew
      | passes _ _ hrest => exact ih hrest
      | explores _ hopen hf => rw [hf] at hpassed; simp [hopen] at hpassed
  | explores hnew hopen hf _ _ ih ih' =>
      cases h' with
      | closes hmem => exact absurd hmem hnew
      | passes _ hpassed => rw [hf] at hpassed; simp [hopen] at hpassed
      | explores _ _ hf' hbody hrest =>
          rw [hf, Option.some_inj] at hf'
          subst hf'
          obtain ⟨rfl, rfl⟩ := ih hbody
          obtain ⟨rfl, rfl⟩ := ih' hrest
          exact ⟨rfl, rfl⟩

/-! ### The search is a walk -/

section Search

variable {fuel : Nat} {known : List String}

/-- A search that walks to each of some stops walks to all of them. -/
theorem exists_walks_stops {step : CycleSearch → String → CycleSearch} {names : Stop → List String}
    (hone : ∀ stop ∈ stops, ∀ s, ∃ walked, Walks m a path s [stop] walked
      ((names stop).foldl step s)) (s : CycleSearch) :
    ∃ walked, Walks m a path s stops walked ((stops.flatMap names).foldl step s) := by
  induction stops generalizing s with
  | nil => exact ⟨[], .nil⟩
  | cons stop rest ih =>
      rw [List.forall_mem_cons] at hone
      obtain ⟨walked, hstop⟩ := hone.1 s
      obtain ⟨walked', hrest⟩ := ih hone.2 ((names stop).foldl step s)
      rw [List.flatMap_cons, List.foldl_append]
      exact ⟨walked ++ walked', hstop.append hrest⟩

/-- Where a search walks to every fragment, it walks through a set to the fragments that are spread
there. As sets stand in their order, fuel for the sets to come is enough to find them all. -/
theorem exists_walks_set (ha : a.Closed) (hbase : a.bases.selectionSets = 0)
    {step : CycleSearch → String → CycleSearch}
    (hfragment : ∀ s name, ∃ walked, Walks m a path s [.fragment name] walked (step s name))
    {id : SelectionSetId} (hfuel : a.selectionSets.size ≤ fuel + id.index) (s : CycleSearch) :
    ∃ walked, Walks m a path s [.set id] walked ((a.spreadNames fuel id).foldl step s) := by
  induction fuel generalizing id s with
  | zero =>
      -- there is no such set
      have hnone : a.selectionSet? id = none := by
        refine Option.eq_none_iff_forall_ne_some.2 fun set hset => ?_
        have hlt := SyntaxArena.index_lt_size hbase hset
        omega
      have hstops : a.stops id = [] := by rw [SyntaxArena.stops, hnone]
      have hinner : Walks m a path s (a.stops id) [] s := hstops ▸ .nil
      exact ⟨_, .set hinner .nil⟩
  | succ fuel ih =>
      rw [SyntaxArena.spreadNames_eq_flatMap]
      have hone : ∀ stop ∈ a.stops id, ∀ s, ∃ walked, Walks m a path s [stop] walked
          ((a.namesAt fuel stop).foldl step s) := by
        intro stop hstop s
        cases stop with
        | set inner =>
            obtain ⟨set, sel, hset, hsel, hinner⟩ := SyntaxArena.exists_selection_of_mem_stops hstop
            have hlt := ha.descends hset hsel hinner
            exact ih (by omega) s
        | fragment name => exact hfragment s name
      obtain ⟨walked, hwalked⟩ := exists_walks_stops hone s
      exact ⟨_, .set hwalked .nil⟩

/-- A search with fuel for every fragment that is not on the path walks wherever it goes. -/
theorem exists_walks_fragment (ha : a.Closed) (hbase : a.bases.selectionSets = 0)
    (hpath : path.Nodup) (hsub : path ⊆ m.keys) (hfuel : m.keys.length ≤ fuel + path.length)
    (s : CycleSearch) (name : String) : ∃ walked, Walks m a path s [.fragment name] walked
      (visit (FragmentIndex.spreadsOf m a) fuel path s name) := by
  induction fuel using Nat.strongRecOn generalizing path s name with
  | ind fuel ih =>
      by_cases hmem : name ∈ path
      · rw [visit_of_mem hmem]
        exact ⟨[], .closes hmem .nil⟩
      by_cases hpassed : name ∈ s.finished ∨ m.get? name = none
      · have hspreads : name ∈ s.finished ∨ FragmentIndex.spreadsOf m a name = none :=
          hpassed.imp_right fun hnone => by rw [FragmentIndex.spreadsOf, hnone]; rfl
        rw [visit_of_passed hmem hspreads]
        exact ⟨[], .passes hmem hpassed .nil⟩
      -- exploring makes the path longer by a fragment, and needs less fuel for that
      · obtain ⟨hopen, hsome⟩ := not_or.1 hpassed
        obtain ⟨f, hf⟩ := Option.ne_none_iff_exists'.1 hsome
        have hname : name ∈ m.keys := OrderedMap.mem_keys_iff.2 ⟨f, hf⟩
        obtain ⟨fuel', rfl⟩ : ∃ fuel', fuel = fuel' + 1 := by
          apply Nat.exists_eq_succ_of_ne_zero
          rintro rfl
          exact notMem_known_of_length_le hpath hsub (by omega) hmem hname
        have hsub' : path ++ [name] ⊆ m.keys :=
          List.append_subset.2 ⟨hsub, List.cons_subset.2 ⟨hname, List.nil_subset _⟩⟩
        have hfuel' : m.keys.length ≤ fuel' + (path ++ [name]).length := by
          rw [List.length_append, List.length_singleton]
          omega
        have hspreads : FragmentIndex.spreadsOf m a name =
            some (a.spreadNames a.selectionSets.size f.selectionSet) := by
          rw [FragmentIndex.spreadsOf, hf]
          rfl
        obtain ⟨walked, hbody⟩ := exists_walks_set ha hbase
          (ih fuel' (Nat.lt_succ_self _) (nodup_concat hpath hmem) hsub' hfuel')
          (Nat.le_add_right _ f.selectionSet.index) s
        rw [visit_of_known hmem hopen hspreads]
        exact ⟨_, .explores hmem hopen hf hbody .nil⟩

end Search

/-! ### Why a set is walked -/

/-- The bodies of fragments, by name. -/
def bodies (m : OrderedMap String FragmentNode) (names : List String) : List SelectionSetId :=
  names.filterMap fun name => (m.get? name).map (·.selectionSet)

theorem count_bodies_finish {name : String} {f : FragmentNode} (hf : m.get? name = some f)
    (id : SelectionSetId) : (bodies m (s.finish name).finished).count id =
      (bodies m s.finished).count id + [Stop.set f.selectionSet].count (.set id) := by
  have hone : bodies m [name] = [f.selectionSet] := by simp [bodies, hf]
  have hsplit : bodies m (s.finished ++ [name]) = bodies m s.finished ++ bodies m [name] :=
    List.filterMap_append
  show (bodies m (s.finished ++ [name])).count id = _
  rw [hsplit, hone, List.count_append, List.count_singleton, List.count_singleton]
  simp

theorem count_set_cons_fragment (name : String) (id : SelectionSetId) :
    (Stop.fragment name :: stops).count (.set id) = stops.count (.set id) := by
  have hne : Stop.fragment name ≠ .set id := nofun
  exact List.count_cons_of_ne hne

/-- A set is walked once for every time that it is called for: by the stops to be made, as the body
of a fragment that gets finished, or by a set that is walked. -/
theorem Walks.balance (h : Walks m a path s stops walked s') (id : SelectionSetId) :
    walked.count id + (bodies m s.finished).count id =
      stops.count (.set id) + (bodies m s'.finished).count id +
        (walked.flatMap a.stops).count (.set id) := by
  induction h with
  | nil => simp
  | @set path s id' walked s₁ rest walked' s' _ _ ih ih' =>
      have hhead : [id'].count id = [Stop.set id'].count (.set id) := by
        simp [List.count_singleton]
      have hwalked : (id' :: walked ++ walked').count id =
          [id'].count id + walked.count id + walked'.count id := by
        rw [List.count_append, ← List.singleton_append, List.count_append]
      have hrest : (.set id' :: rest).count (.set id) =
          [Stop.set id'].count (.set id) + rest.count (.set id) := by
        rw [← List.singleton_append, List.count_append]
      rw [hwalked, hrest, List.flatMap_append, List.flatMap_cons, List.count_append,
        List.count_append]
      omega
  | closes _ _ ih =>
      rw [finished_report] at ih
      rw [count_set_cons_fragment]
      exact ih
  | passes _ _ _ ih =>
      rw [count_set_cons_fragment]
      exact ih
  | explores _ _ hf _ _ ih ih' =>
      rw [count_bodies_finish hf] at ih'
      rw [count_set_cons_fragment, List.count_append, List.flatMap_append, List.count_append]
      omega

/-! ### Fragments are finished once -/

/-- What a search finishes is known, was not finished before, and is not on the path. -/
theorem Visits.exists_new {spreads : String → Option (List String)} {names : List String}
    (h : Visits spreads path s names s') :
    ∃ new, s'.finished = s.finished ++ new ∧ new.Nodup ∧
      ∀ n ∈ new, n ∉ s.finished ∧ n ∉ path ∧ (spreads n).isSome := by
  induction h with
  | nil => exact ⟨[], (List.append_nil _).symm, List.nodup_nil, fun _ hn => nomatch hn⟩
  | closes _ _ ih =>
      rw [finished_report] at ih
      exact ih
  | passes _ _ _ ih => exact ih
  | @explores path s name names s₁ rest s' hnew hopen hnames _ _ ih ih' =>
      obtain ⟨inner, hinner, hnodup, hfresh⟩ := ih
      obtain ⟨after, hafter, hnodup', hfresh'⟩ := ih'
      have hdone : (s₁.finish name).finished = s.finished ++ (inner ++ [name]) := by
        show s₁.finished ++ [name] = _
        rw [hinner, List.append_assoc]
      rw [hdone] at hafter hfresh'
      -- the name is on the path while its body is explored
      have hname : name ∉ inner := fun hmem =>
        (hfresh name hmem).2.1 (List.mem_append_right _ (List.mem_singleton_self name))
      refine ⟨inner ++ [name] ++ after, by rw [hafter, List.append_assoc], ?_, fun n hn => ?_⟩
      · refine List.Nodup.append (nodup_concat hnodup hname) hnodup' fun n hn hn' => ?_
        exact (hfresh' n hn').1 (List.mem_append_right _ hn)
      · rcases List.mem_append.1 hn with hn | hn
        · rcases List.mem_append.1 hn with hn | hn
          · obtain ⟨hold, hpath, hknown⟩ := hfresh n hn
            exact ⟨hold, fun hmem => hpath (List.mem_append_left _ hmem), hknown⟩
          · obtain rfl := List.mem_singleton.1 hn
            exact ⟨hopen, hnew, by rw [hnames]; rfl⟩
        · obtain ⟨hold, hpath, hknown⟩ := hfresh' n hn
          exact ⟨fun hmem => hold (List.mem_append_left _ hmem), hpath, hknown⟩

end CycleSearch

/-! ## Walking an index -/

namespace FragmentIndex

open CycleSearch

variable {m : OrderedMap String FragmentNode} {a : SyntaxArena}

/-- The search of an index is done with every fragment once. -/
theorem finished_search_perm (m : OrderedMap String FragmentNode) (a : SyntaxArena) :
    (search m a).finished.Perm m.keys := by
  have hvisits := visits_search m a
  obtain ⟨new, hnew, hnodup, hknown⟩ := hvisits.exists_new
  have hfinished : (search m a).finished = new := hnew.trans (List.nil_append new)
  refine (List.perm_ext_iff_of_nodup (hfinished ▸ hnodup) m.nodup_keys).2 fun n => ⟨fun hn => ?_,
    fun hn => ?_⟩
  · exact isSome_spreadsOf.1 (hknown n (hfinished ▸ hn)).2.2
  · exact finished_of_visits hvisits hn (isSome_spreadsOf.2 hn)

theorem bodies_keys (m : OrderedMap String FragmentNode) :
    bodies m m.keys = m.values.map (·.selectionSet) := by
  have hentry : ∀ e ∈ m.entries, (m.get? e.1).map FragmentNode.selectionSet =
      some e.2.selectionSet := fun e he => by
    rw [OrderedMap.get?_eq_some_iff.2 he]
    rfl
  rw [bodies, OrderedMap.keys, List.filterMap_map, OrderedMap.values, List.map_map]
  exact (List.filterMap_congr hentry).trans (congrFun List.filterMap_eq_map _)

/-- A search of an index walks these sets, and ends in this state. -/
def Walks (m : OrderedMap String FragmentNode) (a : SyntaxArena) (walked : List SelectionSetId)
    (s : CycleSearch) : Prop :=
  CycleSearch.Walks m a [] .start (m.keys.map .fragment) walked s

/-- The search of an index can be walked to its end. -/
theorem exists_walks_search (ha : a.Closed) (hbase : a.bases.selectionSets = 0) :
    ∃ walked, Walks m a walked (search m a) := by
  have hsize : m.keys.length ≤ m.size + ([] : List String).length := by
    simp [OrderedMap.keys, OrderedMap.size]
  have hone : ∀ stop ∈ m.keys.map Stop.fragment, ∀ s, ∃ walked,
      CycleSearch.Walks m a [] s [stop] walked
        ((a.namesAt 0 stop).foldl (visit (spreadsOf m a) m.size []) s) := by
    intro stop hstop s
    obtain ⟨name, -, rfl⟩ := List.mem_map.1 hstop
    exact exists_walks_fragment ha hbase List.nodup_nil (List.nil_subset _) hsize s name
  obtain ⟨walked, hwalked⟩ := exists_walks_stops hone .start
  refine ⟨walked, ?_⟩
  have hnames : (m.keys.map Stop.fragment).flatMap (a.namesAt 0) = m.keys := by
    rw [List.flatMap_map]
    exact List.flatMap_singleton' m.keys
  rwa [hnames] at hwalked

/-- A set is walked as often as it is the body of a fragment, and once for every time that it stands
in a set that is walked. -/
theorem count_walked {walked : List SelectionSetId} (h : Walks m a walked (search m a))
    (id : SelectionSetId) : walked.count id =
      (m.values.map (·.selectionSet)).count id + (walked.flatMap a.stops).count (.set id) := by
  have hbalance := CycleSearch.Walks.balance h id
  have hfinished : (bodies m (search m a).finished).count id =
      (m.values.map (·.selectionSet)).count id := by
    rw [← bodies_keys]
    exact ((finished_search_perm m a).filterMap _).count_eq id
  have hstops : (m.keys.map Stop.fragment).count (.set id) = 0 := by
    rw [List.count_eq_zero]
    intro hmem
    obtain ⟨name, -, hname⟩ := List.mem_map.1 hmem
    cases hname
  have hstart : (bodies m CycleSearch.start.finished).count id = 0 := rfl
  rw [hstart, hstops, hfinished] at hbalance
  omega

/-! ### Bodies of fragments -/

theorem values_collect_sublist (fragments : List FragmentNode) :
    (collect fragments).1.values.Sublist fragments := by
  induction fragments using List.reverseRecOn with
  | nil => exact .slnil
  | append_singleton before f ih =>
      rw [collect_concat]
      cases hget : (collect before).1.get? f.name with
      | some e => exact ih.trans (List.sublist_append_left _ _)
      | none =>
          have hnew : f.name ∉ (collect before).1.keys := fun hmem => by
            obtain ⟨e, he⟩ := OrderedMap.mem_keys_iff.1 hmem
            exact nomatch hget.symm.trans he
          show ((collect before).1.insert f.name f).values.Sublist _
          rw [OrderedMap.values, OrderedMap.entries_insert_of_notMem f hnew, List.map_append]
          exact ih.append (.refl _)

variable {file : Option String} {definitions : ExecutableDocument} {d : Document}

/-- No set is part of two others, the body of two fragments, or both. -/
theorem nodup_bodies (h : Document.build file definitions = .ok d) :
    (d.fragments.map (·.selectionSet) ++ d.syntaxArena.enclosed).Nodup := by
  obtain ⟨rfl, -⟩ := Document.build_eq_ok_iff.1 h
  have hnumbered := (Document.accounts_lower file definitions).numbered
    (SyntaxArena.Numbered.forDocument file)
  have hall : ((Document.lower file definitions).roots ++
      (Document.lower file definitions).syntaxArena.enclosed).Nodup := by
    refine List.nodup_iff_count_le_one.2 fun id => ?_
    rw [Document.count_enclosed_lower]
    exact List.nodup_iff_count_le_one.1 hnumbered.nodup_setIds id
  rw [Document.roots, List.append_assoc] at hall
  exact hall.of_append_right

/-- **The search for cycles walks the body of each fragment once**, whatever is spread where. It
comes to an end in one way, in which every indexed fragment has its body walked once, and all other
fragments never. Besides bodies, only what stands in them is walked. -/
theorem walked_once_of_build (h : Document.build file definitions = .ok d) :
    ∃ walked, Walks (collect d.fragments).1 d.syntaxArena walked
        (search (collect d.fragments).1 d.syntaxArena) ∧
      (∀ walked' s, Walks (collect d.fragments).1 d.syntaxArena walked' s →
        walked' = walked ∧ s = search (collect d.fragments).1 d.syntaxArena) ∧
      (∀ name f, (collect d.fragments).1.get? name = some f → walked.count f.selectionSet = 1) ∧
      (∀ f ∈ d.fragments, (collect d.fragments).1.get? f.name ≠ some f →
        f.selectionSet ∉ walked) ∧
      ∀ id ∈ walked, (∃ name f, (collect d.fragments).1.get? name = some f ∧ f.selectionSet = id) ∨
        ∃ outer ∈ walked, .set id ∈ d.syntaxArena.stops outer := by
  have hd : d.Closed := Document.Built.closed ⟨file, definitions, h⟩
  have hbase : d.syntaxArena.bases.selectionSets = 0 := by rw [hd.bases]
  obtain ⟨walked, hwalked⟩ :=
    exists_walks_search (m := (collect d.fragments).1) hd.arena hbase
  have hcount := count_walked hwalked
  obtain ⟨hnodup, -, hdisjoint⟩ := List.nodup_append'.1 (nodup_bodies h)
  -- the body of a fragment is not part of any set
  have hinner : ∀ f ∈ d.fragments,
      (walked.flatMap d.syntaxArena.stops).count (.set f.selectionSet) = 0 := by
    intro f hf
    rw [List.count_eq_zero]
    intro hmem
    obtain ⟨id, -, hstop⟩ := List.mem_flatMap.1 hmem
    obtain ⟨_, sel, -, -, hsel⟩ := SyntaxArena.exists_selection_of_mem_stops hstop
    exact hdisjoint (List.mem_map_of_mem hf) (SyntaxArena.mem_enclosed_of_innerSet? hsel)
  refine ⟨walked, hwalked, fun walked' s h' => ?_, fun name f hf => ?_, fun f hf hother => ?_,
    fun id hid => ?_⟩
  · obtain ⟨rfl, rfl⟩ := CycleSearch.Walks.unique hwalked h'
    exact ⟨rfl, rfl⟩
  · have hmem : f ∈ (collect d.fragments).1.values := OrderedMap.mem_values_iff.2 ⟨name, hf⟩
    have honce := ((values_collect_sublist d.fragments).map (·.selectionSet)).nodup hnodup
    rw [hcount, hinner f ((values_collect_sublist d.fragments).subset hmem),
      List.count_eq_one_of_mem honce (List.mem_map_of_mem hmem)]
  · rw [← List.count_eq_zero, hcount, hinner f hf, Nat.add_zero, List.count_eq_zero]
    intro hmem
    obtain ⟨e, he, hsame⟩ := List.mem_map.1 hmem
    obtain ⟨name, hname⟩ := OrderedMap.mem_values_iff.1 he
    obtain ⟨rfl, he'⟩ := collect_indexes d.fragments hname
    obtain rfl := List.inj_on_of_nodup_map hnodup he' hf hsame
    exact hother hname
  · have hpos := List.count_pos_iff.2 hid
    rw [hcount] at hpos
    rcases Nat.add_pos_iff_pos_or_pos.1 hpos with hbody | houter
    · obtain ⟨f, hf, hsame⟩ := List.mem_map.1 (List.count_pos_iff.1 hbody)
      obtain ⟨name, hname⟩ := OrderedMap.mem_values_iff.1 hf
      exact .inl ⟨name, f, hname, hsame⟩
    · exact .inr (List.mem_flatMap.1 (List.count_pos_iff.1 houter))

/-- Two fragments that spread each other, and inside a field a third one that both share, which
spreads a name that no fragment has. The last fragment comes second to the first one. -/
def knot : ExecutableDocument :=
  let here : Position := ⟨1, 1⟩
  let spread (name : String) : Syntax.Selection := .spread ⟨name, [], here⟩
  let inside (name : String) : Syntax.Selection :=
    .field ⟨none, "next", [], [], here⟩ here [spread name]
  let fragment (name : String) (items : List Syntax.Selection) : ExecutableDefinition :=
    .fragment ⟨name, "Node", [], ⟨here, items⟩, here⟩
  [fragment "A" [spread "B", inside "C"], fragment "B" [inside "C", spread "A"],
   fragment "C" [spread "Missing"], fragment "A" [spread "C"]]

/-- Its four bodies are walked this often. -/
theorem walked_knot : ∃ d walked, Document.build none knot = .ok d ∧
    Walks (collect d.fragments).1 d.syntaxArena walked
      (search (collect d.fragments).1 d.syntaxArena) ∧
    d.fragments.map (fun f => walked.count f.selectionSet) = [1, 1, 1, 0] := by
  have hbuild : Document.build none knot = .ok (Document.lower none knot) :=
    Document.build_eq_ok_iff.2 ⟨rfl, by decide +kernel⟩
  obtain ⟨walked, hwalked, -, hindexed, hother, -⟩ := walked_once_of_build hbuild
  refine ⟨_, walked, hbuild, hwalked, ?_⟩
  -- by the ids of their bodies, fragments can be told apart
  have hcount : ∀ f ∈ (Document.lower none knot).fragments, walked.count f.selectionSet =
      if ((collect (Document.lower none knot).fragments).1.get? f.name).map (·.selectionSet) =
        some f.selectionSet then 1 else 0 := by
    intro f hf
    split
    · rename_i hfirst
      obtain ⟨e, he, hsame⟩ := Option.map_eq_some_iff.1 hfirst
      rw [← hsame]
      exact hindexed _ e he
    · rename_i hlater
      refine List.count_eq_zero.2 (hother f hf fun hfirst => hlater ?_)
      rw [hfirst]
      rfl
  rw [List.map_congr_left hcount]
  decide +kernel

end FragmentIndex

end QueryPlan
