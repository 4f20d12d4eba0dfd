import QueryPlan.Proofs.Document.Cycles
import QueryPlan.Proofs.Document.References

/-!
# What is reported of fragments

The errors of an index are told from the syntax trees alone, but for the choice among cycles that
overlap. First comes one error for every definition whose name was taken, in document order, with
the places of the two definitions. The cycles come after them. Each one runs along spreads of
fragments and passes no name twice but for the one that it begins and ends with; no two of them
are rotations of one another; and none of the strongly connected parts that spreads make of the
names goes unnoticed, if there is a cycle in it.

A name stands for the first fragment that has it, here as in an index: what a later one of the
name spreads is never followed.
-/

set_option autoImplicit false

namespace QueryPlan

open QueryPlan.Syntax

/-! ## Names that are taken -/

section Repeats

variable {α β : Type}

/-- The items whose name an earlier one has, in order, each behind the first item of the name. -/
def repeats (name : α → String) (items : List α) : List (α × α) :=
  items.zipIdx.filterMap fun x =>
    ((items.take x.2).find? fun first => name first = name x.1).map (·, x.1)

variable {name : α → String}

/-- One more item adds itself if its name is taken. -/
theorem repeats_concat (items : List α) (x : α) :
    repeats name (items ++ [x]) = repeats name items ++
      ((items.find? fun first => name first = name x).map (·, x)).toList := by
  rw [repeats, List.zipIdx_append, List.filterMap_append]
  congr 1
  · -- what comes before an old item is what came before it
    refine List.filterMap_congr fun y hy => ?_
    have hlt : y.2 < items.length := by
      simpa using List.snd_lt_of_mem_zipIdx hy
    rw [List.take_append_of_le_length hlt.le]
  · rw [List.zipIdx_singleton, List.filterMap_cons, List.filterMap_nil, Nat.zero_add,
      List.take_left]
    cases items.find? fun first => name first = name x <;> rfl

theorem repeats_map (name : β → String) (f : α → β) (items : List α) :
    repeats name (items.map f) =
      (repeats (fun x => name (f x)) items).map (Prod.map f f) := by
  induction items using List.reverseRecOn with
  | nil => rfl
  | append_singleton items x ih =>
      rw [List.map_append, List.map_cons, List.map_nil, repeats_concat, repeats_concat, ih,
        List.map_append, List.find?_map, Function.comp_def]
      cases items.find? fun first => name (f first) = name (f x) <;> rfl

/-- An item whose name is taken stands behind the first one of the name. -/
theorem find?_of_mem_repeats {items : List α} {first x : α}
    (h : (first, x) ∈ repeats name items) :
    items.find? (fun y => name y = name x) = some first := by
  obtain ⟨⟨y, count⟩, -, htaken⟩ := List.mem_filterMap.1 h
  obtain ⟨first', hfirst, heq⟩ := Option.map_eq_some_iff.1 htaken
  obtain ⟨rfl, rfl⟩ := Prod.mk.inj heq
  rw [← List.take_append_drop count items, List.find?_append, hfirst, Option.some_or]

end Repeats

namespace Syntax.ExecutableDocument

variable (definitions : ExecutableDocument)

/-- The fragments whose name is taken, in order, each behind the first one of its name. -/
def redefinitions : List (FragmentDefinition × FragmentDefinition) :=
  repeats (·.name) definitions.fragments

/-- The fragment of each name spreads the next, and the last name is the first again. No other name
comes twice. -/
structure IsCycle (path : List String) : Prop where
  two_le_length : 2 ≤ path.length
  defined : ∀ name ∈ path, name ∈ definitions.fragmentNames
  spreads : path.IsChain definitions.LeadsTo
  closed : path.head? = path.getLast?
  nodup : path.dropLast.Nodup

/-- The strongly connected part that spreads put a name in. -/
def component (name : String) : Set String :=
  {name' | Relation.ReflTransGen definitions.LeadsTo name name' ∧
    Relation.ReflTransGen definitions.LeadsTo name' name}

variable {definitions}

/-- The first of two fragments is the one that their name stands for. -/
theorem fragment?_of_mem_redefinitions {r : FragmentDefinition × FragmentDefinition}
    (hr : r ∈ definitions.redefinitions) : definitions.fragment? r.2.name = some r.1 :=
  find?_of_mem_repeats hr

/-- The strongly connected part of a name is closed under leading back and forth. -/
theorem mem_component_of_transGen {name n n' : String} (hn : n ∈ definitions.component name)
    (hto : Relation.TransGen definitions.LeadsTo n n')
    (hback : Relation.TransGen definitions.LeadsTo n' n) : n' ∈ definitions.component name :=
  ⟨hn.1.trans hto.to_reflTransGen, hback.to_reflTransGen.trans hn.2⟩

end Syntax.ExecutableDocument

/-! ## Where definitions stand -/

/-- What is reported of a fragment: its name, and where it stands. -/
def FragmentNode.site (node : FragmentNode) : String × SyntaxLocation := (node.name, node.location)

def Syntax.FragmentDefinition.site (file : Option String) (f : FragmentDefinition) :
    String × SyntaxLocation :=
  (f.name, .source file f.position)

namespace Document

variable {file : Option String} {definitions : ExecutableDocument} {d : Document}

/-- The fragments stand where their definitions do, and so will those to come. -/
structure Located (file : Option String) (definitions : ExecutableDocument) (d : Document) :
    Prop where
  origin : d.syntaxArena.origin = .document file
  sites : d.fragments.map (·.site) = definitions.fragments.map (·.site file)

theorem Located.addDefinition (h : Located file definitions d) (x : ExecutableDefinition) :
    Located file (definitions ++ [x]) (d.addDefinition x) := by
  cases x with
  | operation o =>
      have hset := d.syntaxArena.accounts_lowerSelectionSet o.selectionSet
      refine ⟨hset.origin.trans h.origin, ?_⟩
      rw [ExecutableDocument.fragments_append, List.map_append]
      exact h.sites.trans (List.append_nil _).symm
  | fragment f =>
      have hset := d.syntaxArena.accounts_lowerSelectionSet f.selectionSet
      have horigin := hset.origin.trans h.origin
      -- the fragment is located in the arena that its body was lowered to
      have hhere : (d.syntaxArena.lowerSelectionSet f.selectionSet).2.locate f.position =
          .source file f.position := by
        rw [SyntaxArena.locate, horigin]
      refine ⟨horigin, ?_⟩
      calc (d.addFragment f).fragments.map (·.site)
          = d.fragments.map (·.site) ++
              [(f.name, (d.syntaxArena.lowerSelectionSet f.selectionSet).2.locate f.position)] :=
            List.map_append
        _ = definitions.fragments.map (·.site file) ++ [f.site file] := by
            rw [h.sites, hhere]
            rfl
        _ = _ := by
            rw [ExecutableDocument.fragments_append, List.map_append]
            rfl

theorem located_lower (file : Option String) (definitions : ExecutableDocument) :
    Located file definitions (lower file definitions) :=
  lower_induct (P := Located file) ⟨rfl, rfl⟩ fun _ _ x h => h.addDefinition x

theorem located_of_build (h : build file definitions = .ok d) : Located file definitions d := by
  obtain ⟨rfl, -⟩ := build_eq_ok_iff.1 h
  exact located_lower file definitions

end Document

/-! ## Errors -/

/-- The error for a fragment whose name is taken. -/
def FragmentError.taken (first second : String × SyntaxLocation) : FragmentError :=
  .duplicate second.1 first.2 second.2

namespace FragmentIndex

variable {file : Option String} {definitions : ExecutableDocument} {d : Document}

/-- What is wrong with the fragments of a document. -/
def errors (d : Document) : List FragmentError :=
  match build d with
  | .ok _ => []
  | .error es => es

theorem errors_eq (d : Document) : errors d = (collect d.fragments).2 ++
    (search (collect d.fragments).1 d.syntaxArena).cycles.map .cycle := by
  unfold errors build
  dsimp only
  generalize (collect d.fragments).2 ++
    (search (collect d.fragments).1 d.syntaxArena).cycles.map FragmentError.cycle = es
  cases es with
  | nil => rfl
  | cons e es => rfl

/-- Collecting finds a duplicate wherever a name is taken. -/
theorem duplicates_collect (fragments : List FragmentNode) :
    (collect fragments).2 = (repeats (·.name) fragments).map fun r => .taken r.1.site r.2.site := by
  induction fragments using List.reverseRecOn with
  | nil => rfl
  | append_singleton before f ih =>
      rw [collect_concat, repeats_concat, List.map_append, ← ih, ← get?_collect_eq_find?]
      cases (collect before).1.get? f.name with
      | none => exact (List.append_nil _).symm
      | some first => rfl

/-- The duplicates of a document are the definitions whose name is taken, where they stand. -/
theorem duplicates_of_located (h : Document.Located file definitions d) :
    (collect d.fragments).2 =
      definitions.redefinitions.map fun r => .taken (r.1.site file) (r.2.site file) := by
  -- of the nodes only their names and places matter, which are those of the definitions
  have hsites : (repeats FragmentNode.name d.fragments).map (Prod.map (·.site) (·.site)) =
      definitions.redefinitions.map (Prod.map (·.site file) (·.site file)) :=
    calc (repeats FragmentNode.name d.fragments).map (Prod.map (·.site) (·.site))
        = repeats Prod.fst (d.fragments.map (·.site)) :=
          (repeats_map Prod.fst FragmentNode.site d.fragments).symm
      _ = repeats Prod.fst (definitions.fragments.map (·.site file)) := by rw [h.sites]
      _ = _ := repeats_map Prod.fst (FragmentDefinition.site file) definitions.fragments
  have htaken := congrArg (List.map fun r => FragmentError.taken r.1 r.2) hsites
  rw [List.map_map, List.map_map] at htaken
  exact (duplicates_collect d.fragments).trans htaken

theorem isCycle_of_closes (hd : d.Closed) (hstores : d.Stores definitions) {path : List String}
    (h : CycleSearch.Closes (spreadsOf (collect d.fragments).1 d.syntaxArena) path)
    (hnodup : path.dropLast.Nodup) : definitions.IsCycle path := by
  have hdefined : ∀ name ∈ path, name ∈ definitions.fragmentNames := fun name hname =>
    (isSome_spreadsOf_collect hstores).1 (h.known hname)
  have hspreads : path.IsChain definitions.LeadsTo := by
    refine h.1.imp_of_mem_imp fun name name' _ hname' hleads => ?_
    exact (links_iff_leadsTo hd hstores).1 ⟨hleads, h.known hname'⟩
  obtain ⟨name, inner, rfl⟩ := h.2
  refine ⟨?_, hdefined, hspreads, ?_, hnodup⟩
  · rw [List.length_append, List.length_cons, List.length_singleton]
    omega
  · rw [List.getLast?_concat]
    rfl

/-- **What is reported of the fragments of a document.** Each definition whose name is taken is
reported first, in document order, with the one that the name stands for. The cycles follow. They
run along spreads, none is a rotation of another, and there is one in every strongly connected part
of the names where spreads lead from some name back to it. -/
theorem reports_of_build (h : Document.build file definitions = .ok d) :
    ∃ cycles : List (List String),
      errors d = (definitions.redefinitions.map fun r =>
        .duplicate r.2.name (.source file r.1.position) (.source file r.2.position)) ++
          cycles.map .cycle ∧
      (∀ r ∈ definitions.redefinitions, definitions.fragment? r.2.name = some r.1) ∧
      (∀ path ∈ cycles, definitions.IsCycle path) ∧
      cycles.Pairwise (fun path path' => ¬ path.dropLast.IsRotated path'.dropLast) ∧
      ∀ name, (∃ n ∈ definitions.component name, Relation.TransGen definitions.LeadsTo n n) →
        ∃ path ∈ cycles, ∀ n ∈ path, n ∈ definitions.component name := by
  have hd : d.Closed := Document.Built.closed ⟨file, definitions, h⟩
  have hstores : d.Stores definitions := Document.stored_of_build h
  have hvisits := visits_search (collect d.fragments).1 d.syntaxArena
  have hcloses {path : List String}
      (hpath : path ∈ (search (collect d.fragments).1 d.syntaxArena).cycles) :=
    CycleSearch.closes_of_visits hvisits hpath
  have hlinks : CycleSearch.Links (spreadsOf (collect d.fragments).1 d.syntaxArena) =
      definitions.LeadsTo := by
    funext name name'
    exact propext (links_iff_leadsTo hd hstores)
  refine ⟨(search (collect d.fragments).1 d.syntaxArena).cycles, ?_,
    fun _ => ExecutableDocument.fragment?_of_mem_redefinitions, fun path hpath => ?_, ?_, ?_⟩
  · rw [errors_eq, duplicates_of_located (Document.located_of_build h)]
    rfl
  · obtain ⟨hcloses, hnodup⟩ := hcloses hpath
    exact isCycle_of_closes hd hstores hcloses hnodup
  · refine (CycleSearch.distinct_of_visits hvisits).imp_of_mem fun hpath _ hne hrotated => ?_
    exact hne (CycleSearch.rotate_eq_of_isRotated (hcloses hpath).2 hrotated).symm
  · rintro name ⟨n, hn, hloop⟩
    rw [← hlinks] at hloop
    obtain ⟨path, hpath, hthrough⟩ := CycleSearch.exists_cycle_through hvisits
      (fun _ hknown => isSome_spreadsOf.1 hknown) hloop
    rw [hlinks] at hthrough
    exact ⟨path, hpath, fun n' hn' =>
      ExecutableDocument.mem_component_of_transGen hn (hthrough n' hn').1 (hthrough n' hn').2⟩

/-- Two cycles that share a fragment, one fragment that spreads itself, and a second `A` that
spreads nothing. -/
def tangled : ExecutableDocument :=
  let fragment (line : Nat) (name : String) (spreads : List String) : ExecutableDefinition :=
    .fragment ⟨name, "Node", [],
      ⟨⟨line, 1⟩, spreads.map fun name => .spread ⟨name, [], ⟨line, 1⟩⟩⟩, ⟨line, 1⟩⟩
  [fragment 1 "A" ["B"], fragment 2 "B" ["A", "C"], fragment 3 "C" ["B", "C"], fragment 4 "A" []]

theorem reports_tangled : ∃ d, Document.build none tangled = .ok d ∧
    errors d = [.duplicate "A" (.source none ⟨1, 1⟩) (.source none ⟨4, 1⟩),
      .cycle ["A", "B", "A"], .cycle ["B", "C", "B"], .cycle ["C", "C"]] ∧
    tangled.IsCycle ["B", "C", "B"] := by
  have hreports : (match Document.build none tangled with
      | .ok d => errors d = [.duplicate "A" (.source none ⟨1, 1⟩) (.source none ⟨4, 1⟩),
          .cycle ["A", "B", "A"], .cycle ["B", "C", "B"], .cycle ["C", "C"]]
      | .error _ => false) = true := by decide +kernel
  cases hbuild : Document.build none tangled with
  | error e =>
      rw [hbuild] at hreports
      cases hreports
  | ok d =>
      rw [hbuild] at hreports
      have herrors := of_decide_eq_true hreports
      obtain ⟨cycles, hcycles, -, hgenuine, -⟩ := reports_of_build hbuild
      -- the second cycle is an error, but not one of a name that is taken
      have hmem : FragmentError.cycle ["B", "C", "B"] ∈ errors d := by simp [herrors]
      rw [hcycles] at hmem
      exact ⟨d, rfl, herrors, hgenuine _ (by simpa using hmem)⟩

end FragmentIndex

end QueryPlan
