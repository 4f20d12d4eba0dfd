import QueryPlan.Proofs.Document.Acyclic
import QueryPlan.Proofs.Document.Stored
import QueryPlan.Proofs.Run

/-!
# Which fragments can be indexed

An index is refused for two reasons only, and both can be read off the syntax trees: two fragments
share a name, or the spreads of some fragment lead back to it. Every cycle that is reported runs
along spreads, so nothing is refused without a reason. Wherever spreads lead back to a fragment a
cycle is reported near by, so none is missed.
-/

set_option autoImplicit false

namespace QueryPlan

open QueryPlan.Syntax

/-! ## Spreads of syntax trees -/

namespace Syntax

mutual

/-- The spreads in a selection, below any nesting. -/
def Selection.spreads : Selection → List SpreadHead
  | .field _ _ items => Selection.allSpreads items
  | .spread head => [head]
  | .inlineFragment _ _ items => Selection.allSpreads items

/-- The spreads in some selections, below any nesting. -/
def Selection.allSpreads : List Selection → List SpreadHead
  | [] => []
  | s :: rest => s.spreads ++ Selection.allSpreads rest

end

/-- The names that are spread in a selection set, below any nesting. -/
def SelectionSet.spreadNames (s : SelectionSet) : List String :=
  (Selection.allSpreads s.items).map (·.name)

namespace ExecutableDocument

variable (definitions : ExecutableDocument)

/-- The names of the fragments that are defined, in order. -/
def fragmentNames : List String := definitions.fragments.map (·.name)

/-- A fragment of the first name spreads the second one, which is that of a fragment too. -/
def Spreads (name name' : String) : Prop :=
  (∃ f ∈ definitions.fragments, f.name = name ∧ name' ∈ f.selectionSet.spreadNames) ∧
    name' ∈ definitions.fragmentNames

/-- The fragment that a name stands for: the first one of that name. -/
def fragment? (name : String) : Option FragmentDefinition :=
  definitions.fragments.find? fun f => f.name = name

/-- The fragment that the first name stands for spreads the second one, which stands for a fragment
too. -/
def LeadsTo (name name' : String) : Prop :=
  (∃ f, definitions.fragment? name = some f ∧ name' ∈ f.selectionSet.spreadNames) ∧
    name' ∈ definitions.fragmentNames

/-- Spreads never lead from a fragment back to it. -/
def Acyclic : Prop := ∀ name, ¬ Relation.TransGen definitions.Spreads name name

variable {definitions} {name name' : String}

/-- Where no two fragments share a name, it stands for each fragment that has it. -/
theorem fragment?_eq_some_iff (h : definitions.fragmentNames.Nodup) {f : FragmentDefinition} :
    definitions.fragment? name = some f ↔ f ∈ definitions.fragments ∧ f.name = name := by
  constructor
  · intro hf
    exact ⟨List.mem_of_find?_eq_some hf, by simpa using List.find?_some hf⟩
  · rintro ⟨hf, rfl⟩
    cases hfirst : definitions.fragment? f.name with
    | none =>
        have hnone := List.find?_eq_none.1 hfirst f hf
        simp at hnone
    | some g =>
        have hname : g.name = f.name := by simpa using List.find?_some hfirst
        exact congrArg some
          (List.inj_on_of_nodup_map h (List.mem_of_find?_eq_some hfirst) hf hname)

theorem leadsTo_iff_spreads (h : definitions.fragmentNames.Nodup) :
    definitions.LeadsTo name name' ↔ definitions.Spreads name name' := by
  refine and_congr_left fun _ => exists_congr fun f => ?_
  rw [fragment?_eq_some_iff h, and_assoc]

end ExecutableDocument

end Syntax

namespace SyntaxArena

variable {a : SyntaxArena}

/-- More fuel finds no less. -/
theorem spreadNames_subset_succ (a : SyntaxArena) (fuel : Nat) (id : SelectionSetId) :
    a.spreadNames fuel id ⊆ a.spreadNames (fuel + 1) id := by
  induction fuel generalizing id with
  | zero => exact List.nil_subset _
  | succ fuel ih =>
      intro n hn
      obtain ⟨node, hnode, sel, hsel, h⟩ := mem_spreadNames_succ.1 hn
      refine mem_spreadNames_succ.2 ⟨node, hnode, sel, hsel, h.imp_right ?_⟩
      rintro ⟨inner, hinner, h⟩
      exact ⟨inner, hinner, ih inner h⟩

/-- The selection spreads a fragment of the name, or there is such a spread inside it. -/
def SpreadsName (a : SyntaxArena) (n : String) (sel : SelectionNode) : Prop :=
  (∃ id s, sel = .spread id ∧ a.spread? id = some s ∧ s.fragmentName = n) ∨
    ∃ inner, a.innerSet? sel = some inner ∧ n ∈ a.allSpreads inner

variable {n : String}

theorem spreadsName_field {id : FieldId} {node : FieldNode} (hn : a.field? id = some node) :
    a.SpreadsName n (.field id) ↔
      ∃ inner, node.selectionSet = some inner ∧ n ∈ a.allSpreads inner := by
  simp [SpreadsName, innerSet?, hn]

theorem spreadsName_spread {id : SpreadId} {node : SpreadNode} (hn : a.spread? id = some node) :
    a.SpreadsName n (.spread id) ↔ n = node.fragmentName := by
  simp [SpreadsName, innerSet?, hn, eq_comm]

theorem spreadsName_inlineFragment {id : InlineFragmentId} {node : InlineFragmentNode}
    (hn : a.inlineFragment? id = some node) :
    a.SpreadsName n (.inlineFragment id) ↔ n ∈ a.allSpreads node.selectionSet := by
  simp [SpreadsName, innerSet?, hn]

/-- What a set spreads is what its selections spread. -/
theorem mem_allSpreads (ha : a.Closed) (hbase : a.bases.selectionSets = 0) {id : SelectionSetId}
    {set : SelectionSetNode} (hset : a.selectionSet? id = some set) :
    n ∈ a.allSpreads id ↔ ∃ sel ∈ set.selections, a.SpreadsName n sel := by
  constructor
  · intro hn
    obtain ⟨fuel, hfuel⟩ := Nat.exists_eq_add_one.2 (Nat.zero_lt_of_lt (index_lt_size hbase hset))
    rw [allSpreads, hfuel] at hn
    obtain ⟨node, hnode, sel, hsel, h⟩ := mem_spreadNames_succ.1 hn
    rw [hset, Option.some_inj] at hnode
    subst hnode
    refine ⟨sel, hsel, h.imp_right ?_⟩
    rintro ⟨inner, hinner, h⟩
    refine ⟨inner, hinner, ?_⟩
    rw [allSpreads, hfuel]
    exact spreadNames_subset_succ a fuel inner h
  · rintro ⟨sel, hsel, ⟨sid, s, rfl, hs, rfl⟩ | ⟨inner, hinner, h⟩⟩
    · exact mem_allSpreads_of_spread hbase hset hsel hs
    · exact allSpreads_inner_subset ha hbase hset hsel hinner h

/-- The spreads of selections that are stored are those of the trees. -/
theorem Stores.spreadsName_iff (ha : a.Closed) (hbase : a.bases.selectionSets = 0)
    {nodes : List SelectionNode} {items : List Syntax.Selection} (h : a.Stores nodes items) :
    (∃ sel ∈ nodes, a.SpreadsName n sel) ↔
      n ∈ (Selection.allSpreads items).map (·.name) := by
  induction h with
  | nil => simp [Selection.allSpreads]
  | leaf hn _ hset _ ih =>
      rw [List.exists_mem_cons_iff, spreadsName_field hn, ih, hset, Selection.allSpreads,
        Selection.spreads, Selection.allSpreads, List.nil_append]
      simp
  | field hn _ hinner _ hset _ _ ih ih' =>
      rw [List.exists_mem_cons_iff, spreadsName_field hn, hinner, ih', Selection.allSpreads,
        Selection.spreads, List.map_append, List.mem_append, ← ih, ← mem_allSpreads ha hbase hset]
      simp
  | spread hn hhead _ ih =>
      rw [List.exists_mem_cons_iff, spreadsName_spread hn, ih, hhead.fragmentName,
        Selection.allSpreads, Selection.spreads, List.map_append, List.mem_append, List.map_cons,
        List.map_nil, List.mem_singleton]
  | inlineFragment hn _ hset _ _ ih ih' =>
      rw [List.exists_mem_cons_iff, spreadsName_inlineFragment hn, ih', Selection.allSpreads,
        Selection.spreads, List.map_append, List.mem_append, ← ih, ← mem_allSpreads ha hbase hset]

end SyntaxArena

/-! ## Indexes -/

namespace FragmentIndex

/-- Collecting finds no duplicates exactly where all names differ, and then keeps every fragment
under its name. -/
theorem collect_spec (fragments : List FragmentNode) :
    ((collect fragments).2 = [] ↔ (fragments.map (·.name)).Nodup) ∧
      ((collect fragments).2 = [] →
        (collect fragments).1.entries = fragments.map fun f => (f.name, f)) := by
  induction fragments using List.reverseRecOn with
  | nil => exact ⟨⟨fun _ => List.nodup_nil, fun _ => rfl⟩, fun _ => rfl⟩
  | append_singleton before f ih =>
      obtain ⟨hnodup, hentries⟩ := ih
      -- where no name was there twice, the names so far are the keys
      have hkeys (hnone : (collect before).2 = []) :
          f.name ∈ before.map (·.name) ↔ f.name ∈ (collect before).1.keys := by
        rw [OrderedMap.keys, hentries hnone, List.map_map]
        rfl
      have hnames : ((before ++ [f]).map (·.name)).Nodup ↔
          (before.map (·.name)).Nodup ∧ f.name ∉ before.map (·.name) := by
        rw [List.map_append, List.map_cons, List.map_nil, ← List.concat_eq_append,
          List.nodup_concat, and_comm]
      rw [collect_concat, hnames, ← hnodup]
      cases hget : (collect before).1.get? f.name with
      | some e =>
          have hsome (errors : List FragmentError) (error : FragmentError) :
              errors ++ [error] ≠ [] :=
            List.append_ne_nil_of_right_ne_nil _ (List.cons_ne_nil _ _)
          refine ⟨⟨fun h => absurd h (hsome _ _), fun h => ?_⟩, fun h => absurd h (hsome _ _)⟩
          exact absurd ((hkeys h.1).2 (OrderedMap.mem_keys_iff.2 ⟨e, hget⟩)) h.2
      | none =>
          have hnew : f.name ∉ (collect before).1.keys := by
            rw [OrderedMap.mem_keys_iff, hget]
            simp
          refine ⟨⟨fun h => ⟨h, fun hmem => hnew ((hkeys h).1 hmem)⟩, And.left⟩, fun h => ?_⟩
          rw [Option.elim_none, OrderedMap.entries_insert_of_notMem f hnew, hentries h,
            List.map_append]
          rfl

theorem keys_collect {fragments : List FragmentNode} (h : (collect fragments).2 = []) :
    (collect fragments).1.keys = fragments.map (·.name) := by
  rw [OrderedMap.keys, (collect_spec fragments).2 h, List.map_map]
  rfl

theorem get?_collect {fragments : List FragmentNode} (h : (collect fragments).2 = [])
    {name : String} {f : FragmentNode} :
    (collect fragments).1.get? name = some f ↔ f ∈ fragments ∧ f.name = name := by
  rw [OrderedMap.get?_eq_some_iff, (collect_spec fragments).2 h]
  simp only [List.mem_map, Prod.mk.injEq]
  exact ⟨fun ⟨_, hf, hname, heq⟩ => heq ▸ ⟨hf, hname⟩, fun ⟨hf, hname⟩ => ⟨f, hf, hname, rfl⟩⟩

/-- **A search reports a cycle exactly where spreads lead from a name back to it.** -/
theorem search_cycles_eq_nil_iff {m : OrderedMap String FragmentNode} {a : SyntaxArena} :
    (search m a).cycles = [] ↔
      ∀ name, ¬ Relation.TransGen (CycleSearch.Links (spreadsOf m a)) name name := by
  have hvisits := visits_search m a
  constructor
  · intro h name hloop
    obtain ⟨cycle, hcycle, -⟩ := CycleSearch.exists_cycle_through hvisits
      (fun _ hknown => isSome_spreadsOf.1 hknown) hloop
    rw [h] at hcycle
    cases hcycle
  · intro h
    refine List.eq_nil_iff_forall_not_mem.2 fun cycle hcycle => ?_
    obtain ⟨hcloses, -⟩ := CycleSearch.closes_of_visits hvisits hcycle
    -- a cycle leads from its first name back to it
    obtain ⟨name, inner, rfl⟩ := hcloses.2
    have hmem : name ∈ name :: inner ++ [name] := List.mem_cons_self
    exact h name (hcloses.transGen hmem hmem)

variable {file : Option String} {definitions : ExecutableDocument} {d : Document}

theorem names_eq_fragmentNames (h : d.Stores definitions) :
    d.fragments.map (·.name) = definitions.fragmentNames :=
  map_eq_of_forall₂ h.fragments fun _ _ hf => hf.name

/-- The names that are known are those of fragments, also where some are of one name. -/
theorem isSome_spreadsOf_collect (hstores : d.Stores definitions) {name : String} :
    (spreadsOf (collect d.fragments).1 d.syntaxArena name).isSome ↔
      name ∈ definitions.fragmentNames := by
  rw [isSome_spreadsOf, OrderedMap.mem_keys_iff, ← names_eq_fragmentNames hstores,
    ← Option.isSome_iff_exists, get?_collect_eq_find?, List.find?_isSome]
  simp

/-- Following names from one indexed fragment to the next is following spreads of the syntax
trees. -/
theorem links_iff_leadsTo (hd : d.Closed) (hstores : d.Stores definitions) {name name' : String} :
    CycleSearch.Links (spreadsOf (collect d.fragments).1 d.syntaxArena) name name' ↔
      definitions.LeadsTo name name' := by
  have hbase : d.syntaxArena.bases.selectionSets = 0 := by rw [hd.bases]
  -- the body of a node spreads what that of its definition does
  have hbody {node : FragmentNode} {f : FragmentDefinition} (hf : d.StoresFragment node f) :
      name' ∈ d.syntaxArena.allSpreads node.selectionSet ↔ name' ∈ f.selectionSet.spreadNames := by
    obtain ⟨set, hset, hitems⟩ := hf.selectionSet
    rw [SyntaxArena.mem_allSpreads hd.arena hbase hset, hitems.spreadsName_iff hd.arena hbase]
    rfl
  have hfirst : Option.Rel d.StoresFragment ((collect d.fragments).1.get? name)
      (definitions.fragment? name) := by
    rw [get?_collect_eq_find?]
    exact rel_find? hstores.fragments fun node f hf => by rw [hf.name]
  refine and_congr ?_ (isSome_spreadsOf_collect hstores)
  rw [CycleSearch.Leads, spreadsOf]
  generalize (collect d.fragments).1.get? name = node? at hfirst ⊢
  generalize definitions.fragment? name = f? at hfirst ⊢
  cases hfirst with
  | none => simp
  | some hstored =>
      simp only [Option.map_some, Option.some_inj, exists_eq_left']
      exact hbody hstored

/-- Spreads between indexed fragments are those of the syntax trees. -/
theorem leads_iff_spreads (hd : d.Closed) (hstores : d.Stores definitions)
    (hnone : (collect d.fragments).2 = []) {name name' : String} :
    CycleSearch.Links (spreadsOf (collect d.fragments).1 d.syntaxArena) name name' ↔
      definitions.Spreads name name' := by
  rw [(collect_spec d.fragments).1, names_eq_fragmentNames hstores] at hnone
  exact (links_iff_leadsTo hd hstores).trans (ExecutableDocument.leadsTo_iff_spreads hnone)

theorem exists_index_iff (h : Document.build file definitions = .ok d) :
    (∃ index, build d = .ok index) ↔ definitions.fragmentNames.Nodup ∧ definitions.Acyclic := by
  have hd : d.Closed := Document.Built.closed ⟨file, definitions, h⟩
  have hstores : d.Stores definitions := Document.stored_of_build h
  have hnodup : (collect d.fragments).2 = [] ↔ definitions.fragmentNames.Nodup := by
    rw [(collect_spec d.fragments).1, names_eq_fragmentNames hstores]
  have hacyclic (hnone : (collect d.fragments).2 = []) :
      (search (collect d.fragments).1 d.syntaxArena).cycles = [] ↔ definitions.Acyclic := by
    have hlinks : CycleSearch.Links (spreadsOf (collect d.fragments).1 d.syntaxArena) =
        definitions.Spreads := by
      funext name name'
      exact propext (leads_iff_spreads hd hstores hnone)
    rw [search_cycles_eq_nil_iff, hlinks]
    rfl
  constructor
  · rintro ⟨index, hindex⟩
    obtain ⟨-, hnone, hcycles⟩ := build_eq_ok_iff.1 hindex
    exact ⟨hnodup.1 hnone, (hacyclic hnone).1 hcycles⟩
  · rintro ⟨hnames, hloops⟩
    have hnone := hnodup.2 hnames
    exact ⟨_, build_eq_ok_iff.2 ⟨rfl, hnone, (hacyclic hnone).2 hloops⟩⟩

theorem resolve?_iff {index : FragmentIndex} (hindex : build d = .ok index) {name : String}
    {node : FragmentNode} :
    index.resolve? name = some node ↔ node ∈ d.fragments ∧ node.name = name := by
  obtain ⟨rfl, hnone, -⟩ := build_eq_ok_iff.1 hindex
  exact get?_collect hnone

/-- The name of a fragment that is defined is resolved to its definition. -/
theorem resolved_of_mem {index : FragmentIndex} (hstores : d.Stores definitions)
    (hindex : build d = .ok index) {f : FragmentDefinition} (hf : f ∈ definitions.fragments) :
    ∃ node, index.resolve? f.name = some node ∧ d.StoresFragment node f := by
  obtain ⟨node, hnode, hstored⟩ := exists_of_mem_right hstores.fragments hf
  exact ⟨node, (resolve?_iff hindex).2 ⟨hnode, hstored.name⟩, hstored⟩

/-- **Exactly the documents without duplicates and cycles are indexed.** An index is built where
fragment names differ and spreads lead from no fragment back to it, and where one is built, it
lists the fragments in document order and resolves each name that is defined, and no other, to
its definition. -/
theorem build_ok_iff_acyclic (h : Document.build file definitions = .ok d) :
    ((∃ index, build d = .ok index) ↔
      definitions.fragmentNames.Nodup ∧ definitions.Acyclic) ∧
    ∀ index, build d = .ok index →
      index.names = definitions.fragmentNames ∧
      (∀ name node, index.resolve? name = some node ↔ node ∈ d.fragments ∧ node.name = name) ∧
      ∀ f ∈ definitions.fragments, ∃ node,
        index.resolve? f.name = some node ∧ d.StoresFragment node f := by
  have hstores : d.Stores definitions := Document.stored_of_build h
  refine ⟨exists_index_iff h, fun index hindex => ⟨?_, fun _ _ => resolve?_iff hindex,
    fun _ hf => resolved_of_mem hstores hindex hf⟩⟩
  obtain ⟨rfl, hnone, -⟩ := build_eq_ok_iff.1 hindex
  show (collect d.fragments).1.keys = _
  rw [keys_collect hnone, names_eq_fragmentNames hstores]

/-- Two fragments that share a third one, inside a field and an inline fragment. -/
def diamond : ExecutableDocument :=
  let here : Position := ⟨1, 1⟩
  let spread (name : String) : Syntax.Selection := .spread ⟨name, [], here⟩
  let fragment (name : String) (items : List Syntax.Selection) : ExecutableDefinition :=
    .fragment ⟨name, "Node", [], ⟨here, items⟩, here⟩
  [fragment "Top" [spread "Left", spread "Right"],
   fragment "Left" [.field ⟨none, "next", [], [], here⟩ here [spread "Bottom"]],
   fragment "Right" [.inlineFragment ⟨none, [], here⟩ here [spread "Bottom"]],
   fragment "Bottom" [spread "Elsewhere"]]

/-- Sharing a fragment is no cycle. -/
theorem diamond_acyclic : ∃ d index, Document.build none diamond = .ok d ∧
    build d = .ok index ∧ diamond.Acyclic ∧ index.names = diamond.fragmentNames := by
  have hindexed : (match Document.build none diamond with
      | .ok d => (build d).isOk
      | .error _ => false) = true := by decide +kernel
  cases hbuild : Document.build none diamond with
  | error e =>
      rw [hbuild] at hindexed
      cases hindexed
  | ok d =>
      rw [hbuild] at hindexed
      dsimp only at hindexed
      cases hindex : build d with
      | error e =>
          rw [hindex] at hindexed
          cases hindexed
      | ok index =>
          obtain ⟨hiff, hall⟩ := build_ok_iff_acyclic hbuild
          exact ⟨d, index, rfl, hindex, (hiff.1 ⟨index, hindex⟩).2, (hall index hindex).1⟩

end FragmentIndex

end QueryPlan
