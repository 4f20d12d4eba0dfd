import Mathlib.Tactic
import QueryPlan.Proofs.Document.Fragments
import QueryPlan.Proofs.Document.Search

/-!
# Fragments come to an end

A search for cycles that reports none is done with every fragment after all that the fragment
spreads. From this order, and from the ids of selection sets that stand inside one another, each
selection set of a document gets a rank that goes down wherever a fragment is entered. There are
no more ranks than there are selection sets, so this bounds how deep fragments nest.
-/

set_option autoImplicit false

namespace QueryPlan

/-! ## The order of fragments -/

namespace FragmentIndex

/-- Where a search has found no cycle, the fragments are in an order in which each comes after
those that it spreads. -/
theorem exists_order {m : OrderedMap String FragmentNode} {a : SyntaxArena}
    (h : (search m a).cycles = []) : ∃ order : String → Nat, ∀ {name n : String}
      {names : List String}, spreadsOf m a name = some names → n ∈ names →
      (spreadsOf m a n).isSome → order n < order name := by
  have hvisits := visits_search m a
  refine ⟨(search m a).finished.idxOf, fun {name n names} hnames hn hknown => ?_⟩
  have hlinks : CycleSearch.Links (spreadsOf m a) name n := ⟨⟨names, hnames, hn⟩, hknown⟩
  have hdone : name ∈ (search m a).finished :=
    CycleSearch.finished_of_visits hvisits (isSome_spreadsOf.1 hlinks.1.known) hlinks.1.known
  rcases CycleSearch.explained_of_visits hvisits hdone hlinks with hlt | ⟨cycle, hcycle, -⟩
  · exact hlt
  · rw [h] at hcycle
    cases hcycle

end FragmentIndex

/-! ## Spreads at any depth -/

namespace SyntaxArena

variable {a : SyntaxArena} {set inner : SelectionSetId} {node : SelectionSetNode}
  {sel : SelectionNode} {n : String}

/-- A fragment is spread by a selection of the set, or inside one. -/
theorem mem_spreadNames_succ {fuel : Nat} :
    n ∈ a.spreadNames (fuel + 1) set ↔ ∃ node, a.selectionSet? set = some node ∧
      ∃ sel ∈ node.selections,
        (∃ id s, sel = .spread id ∧ a.spread? id = some s ∧ s.fragmentName = n) ∨
        ∃ inner, a.innerSet? sel = some inner ∧ n ∈ a.spreadNames fuel inner := by
  rw [spreadNames]
  cases a.selectionSet? set with
  | none => simp
  | some node =>
      simp only [Option.some_inj, exists_eq_left', List.mem_flatMap]
      refine exists_congr fun sel => and_congr_right fun _ => ?_
      cases sel with
      | field id =>
          dsimp only [innerSet?]
          cases (a.field? id).bind FieldNode.selectionSet <;> simp
      | spread id =>
          dsimp only [innerSet?]
          cases hs : a.spread? id with
          | none => simp [hs]
          | some s => simp [hs, eq_comm]
      | inlineFragment id =>
          dsimp only [innerSet?]
          cases a.inlineFragment? id <;> simp

/-- As sets stand in their order, no more fuel is needed than there are sets to come. -/
theorem mem_spreadNames_of_succ (ha : a.Closed) (hbase : a.bases.selectionSets = 0) {fuel : Nat}
    (hfuel : a.selectionSets.size ≤ fuel + set.index) (h : n ∈ a.spreadNames (fuel + 1) set) :
    n ∈ a.spreadNames fuel set := by
  induction fuel generalizing set with
  | zero =>
      obtain ⟨node, hset, -⟩ := mem_spreadNames_succ.1 h
      have hlt := lt_of_selectionSet? hset
      have hnext : a.nextSelectionSetId.index = a.bases.selectionSets + a.selectionSets.size := rfl
      omega
  | succ fuel ih =>
      obtain ⟨node, hset, sel, hsel, h⟩ := mem_spreadNames_succ.1 h
      refine mem_spreadNames_succ.2 ⟨node, hset, sel, hsel, h.imp_right ?_⟩
      rintro ⟨inner, hinner, hn⟩
      -- the set inside comes later, which makes up for the fuel
      have hlt := ha.descends hset hsel hinner
      exact ⟨inner, hinner, ih (by omega) hn⟩

/-- All that is spread in a set, at any depth. -/
def allSpreads (a : SyntaxArena) (set : SelectionSetId) : List String :=
  a.spreadNames a.selectionSets.size set

theorem index_lt_size (hbase : a.bases.selectionSets = 0) (hset : a.selectionSet? set = some node) :
    set.index < a.selectionSets.size := by
  have hlt := lt_of_selectionSet? hset
  have hnext : a.nextSelectionSetId.index = a.bases.selectionSets + a.selectionSets.size := rfl
  omega

theorem mem_allSpreads_of_spread (hbase : a.bases.selectionSets = 0)
    (hset : a.selectionSet? set = some node) {id : SpreadId} {s : SpreadNode}
    (hsel : .spread id ∈ node.selections) (hs : a.spread? id = some s) :
    s.fragmentName ∈ a.allSpreads set := by
  obtain ⟨fuel, hfuel⟩ := Nat.exists_eq_add_one.2 (Nat.zero_lt_of_lt (index_lt_size hbase hset))
  rw [allSpreads, hfuel]
  exact mem_spreadNames_succ.2 ⟨node, hset, _, hsel, Or.inl ⟨id, s, rfl, hs, rfl⟩⟩

theorem allSpreads_inner_subset (ha : a.Closed) (hbase : a.bases.selectionSets = 0)
    (hset : a.selectionSet? set = some node) (hsel : sel ∈ node.selections)
    (hinner : a.innerSet? sel = some inner) : a.allSpreads inner ⊆ a.allSpreads set := by
  intro n hn
  obtain ⟨fuel, hfuel⟩ := Nat.exists_eq_add_one.2 (Nat.zero_lt_of_lt (index_lt_size hbase hset))
  have hlt := ha.descends hset hsel hinner
  rw [allSpreads, hfuel] at hn ⊢
  have hn' : n ∈ a.spreadNames fuel inner := mem_spreadNames_of_succ ha hbase (by omega) hn
  exact mem_spreadNames_succ.2 ⟨node, hset, sel, hsel, Or.inr ⟨inner, hinner, hn'⟩⟩

end SyntaxArena

/-! ## Ranks and depths of selection sets -/

/-- Reading the selection goes on into a selection set, as a fragment. -/
inductive Document.Enters (d : Document) (index : FragmentIndex) :
    SelectionNode → SelectionSetId → Prop
  | inlineFragment {id node} : d.syntaxArena.inlineFragment? id = some node →
      Enters d index (.inlineFragment id) node.selectionSet
  | spread {id node fragment} : d.syntaxArena.spread? id = some node →
      index.resolve? node.fragmentName = some fragment →
      Enters d index (.spread id) fragment.selectionSet

/-- Wherever a fragment is entered the rank goes down. -/
def Document.Ranks (d : Document) (index : FragmentIndex) (rank : SelectionSetId → Nat) : Prop :=
  ∀ ⦃set node sel inner⦄, d.syntaxArena.selectionSet? set = some node → sel ∈ node.selections →
    d.Enters index sel inner → rank inner < rank set

/-- The selection leads to a selection set: as a fragment that is entered, or down to its
sub-selections. -/
inductive Document.Leads (d : Document) (index : FragmentIndex) :
    SelectionNode → SelectionSetId → Prop
  | fragment {sel inner} : d.Enters index sel inner → Leads d index sel inner
  | field {id node inner} : d.syntaxArena.field? id = some node →
      node.selectionSet = some inner → Leads d index (.field id) inner

/-- Wherever one selection set leads to another the depth goes down. -/
def Document.Depths (d : Document) (index : FragmentIndex) (depth : SelectionSetId → Nat) :
    Prop :=
  ∀ ⦃set node sel inner⦄, d.syntaxArena.selectionSet? set = some node → sel ∈ node.selections →
    d.Leads index sel inner → depth inner < depth set

theorem Document.Depths.ranks {d : Document} {index : FragmentIndex}
    {depth : SelectionSetId → Nat} (h : d.Depths index depth) : d.Ranks index depth :=
  fun _ _ _ _ hset hsel henters => h hset hsel (.fragment henters)

/-- A measure that goes down along a relation need not be larger than the number of items that
the relation leads to. -/
theorem exists_measure_le_card {α : Type} {r : α → α → Prop} {measure : α → Nat}
    (h : ∀ x y, r x y → measure y < measure x) (s : Finset α) (hs : ∀ x y, r x y → y ∈ s) :
    ∃ measure' : α → Nat, (∀ x y, r x y → measure' y < measure' x) ∧
      ∀ x, measure' x ≤ s.card := by
  -- an item is measured by how many items are below it
  let lower (x : α) : Finset α := s.filter fun y => measure y < measure x
  refine ⟨fun x => (lower x).card, fun x y hxy => ?_, fun x => Finset.card_filter_le _ _⟩
  have hlt : measure y < measure x := h x y hxy
  refine Finset.card_lt_card (Finset.ssubset_iff_subset_ne.2 ⟨fun z hz => ?_, fun heq => ?_⟩)
  · rw [Finset.mem_filter] at hz ⊢
    exact ⟨hz.1, hz.2.trans hlt⟩
  · have hmem : y ∈ lower x := Finset.mem_filter.2 ⟨hs x y hxy, hlt⟩
    rw [← heq] at hmem
    exact lt_irrefl _ (Finset.mem_filter.1 hmem).2

/-- Depths need not be larger than the number of selection sets. -/
theorem Document.Depths.compress {d : Document} {index : FragmentIndex}
    {depth : SelectionSetId → Nat} (h : d.Depths index depth)
    (hinner : ∀ {sel inner}, d.Leads index sel inner →
      inner.index < d.syntaxArena.selectionSets.size) :
    ∃ depth', d.Depths index depth' ∧ ∀ set, depth' set ≤ d.syntaxArena.selectionSets.size := by
  let sets : Finset SelectionSetId :=
    (Finset.range d.syntaxArena.selectionSets.size).map
      ⟨SelectionSetId.mk, fun _ _ heq => SelectionSetId.mk.inj heq⟩
  let leads (set inner : SelectionSetId) : Prop := ∃ node sel,
    d.syntaxArena.selectionSet? set = some node ∧ sel ∈ node.selections ∧ d.Leads index sel inner
  have hdown : ∀ set inner, leads set inner → depth inner < depth set :=
    fun _ _ ⟨_, _, hset, hsel, hleads⟩ => h hset hsel hleads
  have hmem : ∀ set inner, leads set inner → inner ∈ sets := fun _ inner ⟨_, _, _, _, hleads⟩ =>
    Finset.mem_map.2 ⟨inner.index, Finset.mem_range.2 (hinner hleads), rfl⟩
  obtain ⟨depth', hdown', hle⟩ := exists_measure_le_card hdown sets hmem
  refine ⟨depth', fun set node sel inner hset hsel hleads =>
    hdown' _ _ ⟨node, sel, hset, hsel, hleads⟩, fun set => ?_⟩
  calc depth' set ≤ sets.card := hle set
    _ = d.syntaxArena.selectionSets.size := by rw [Finset.card_map, Finset.card_range]

namespace FragmentIndex

section Height

variable {d : Document} {m : OrderedMap String FragmentNode} {order : String → Nat}
  {set inner : SelectionSetId} {node : SelectionSetNode} {sel : SelectionNode}

/-- A number above those of all fragments that are spread in a set. -/
def height (m : OrderedMap String FragmentNode) (order : String → Nat) (a : SyntaxArena)
    (set : SelectionSetId) : Nat :=
  (a.allSpreads set).toFinset.sup fun n => if (m.get? n).isSome then order n + 1 else 0

theorem height_inner_le (hd : d.Closed) (hset : d.syntaxArena.selectionSet? set = some node)
    (hsel : sel ∈ node.selections) (hinner : d.syntaxArena.innerSet? sel = some inner) :
    height m order d.syntaxArena inner ≤ height m order d.syntaxArena set := by
  have hbase : d.syntaxArena.bases.selectionSets = 0 := by rw [hd.bases]
  refine Finset.sup_mono fun n hn => ?_
  rw [List.mem_toFinset] at hn ⊢
  exact SyntaxArena.allSpreads_inner_subset hd.arena hbase hset hsel hinner hn

/-- Where fragments are in order, the body of one is lower than the sets that spread it. -/
theorem height_fragment_lt (hd : d.Closed)
    (horder : ∀ {name n : String} {names : List String},
      spreadsOf m d.syntaxArena name = some names → n ∈ names →
      (spreadsOf m d.syntaxArena n).isSome → order n < order name)
    (hset : d.syntaxArena.selectionSet? set = some node) {id : SpreadId} {s : SpreadNode}
    (hsel : .spread id ∈ node.selections) (hs : d.syntaxArena.spread? id = some s)
    {f : FragmentNode} (hf : m.get? s.fragmentName = some f) :
    height m order d.syntaxArena f.selectionSet < height m order d.syntaxArena set := by
  have hbase : d.syntaxArena.bases.selectionSets = 0 := by rw [hd.bases]
  have hspreads : spreadsOf m d.syntaxArena s.fragmentName =
      some (d.syntaxArena.allSpreads f.selectionSet) := by
    rw [spreadsOf, hf]
    rfl
  -- all that the body spreads comes before the fragment
  have hbody : height m order d.syntaxArena f.selectionSet ≤ order s.fragmentName := by
    refine Finset.sup_le fun n hn => ?_
    rw [List.mem_toFinset] at hn
    split
    · rename_i hknown
      exact horder hspreads hn (by rwa [spreadsOf, Option.isSome_map])
    · exact Nat.zero_le _
  have hmem : s.fragmentName ∈ (d.syntaxArena.allSpreads set).toFinset :=
    List.mem_toFinset.2 (SyntaxArena.mem_allSpreads_of_spread hbase hset hsel hs)
  -- the set spreads the fragment itself
  have hspread := Finset.le_sup (f := fun n => if (m.get? n).isSome then order n + 1 else 0) hmem
  rw [hf, Option.isSome_some, if_pos rfl] at hspread
  exact hbody.trans_lt hspread

end Height

variable {d : Document} {index : FragmentIndex}

/-- What a selection leads to without a spread stands inside it. -/
theorem leads_cases {sel : SelectionNode} {inner : SelectionSetId} (h : d.Leads index sel inner) :
    d.syntaxArena.innerSet? sel = some inner ∨
      ∃ id node f, sel = .spread id ∧ d.syntaxArena.spread? id = some node ∧
        index.resolve? node.fragmentName = some f ∧ inner = f.selectionSet := by
  cases h with
  | fragment henters =>
      cases henters with
      | inlineFragment hn =>
          refine Or.inl ?_
          rw [SyntaxArena.innerSet?, hn]
          rfl
      | spread hs hf => exact Or.inr ⟨_, _, _, rfl, hs, hf, rfl⟩
  | field hn hinner =>
      refine Or.inl ?_
      rw [SyntaxArena.innerSet?, hn]
      exact hinner

theorem leads_lt (hd : d.Closed) (h : build d = .ok index) {sel : SelectionNode}
    {inner : SelectionSetId} (hleads : d.Leads index sel inner) :
    inner.index < d.syntaxArena.selectionSets.size := by
  have hbase : d.syntaxArena.bases.selectionSets = 0 := by rw [hd.bases]
  obtain hinner | ⟨_, _, f, -, -, hf, rfl⟩ := leads_cases hleads
  · obtain ⟨_, hset⟩ := hd.arena.inner hinner
    exact SyntaxArena.index_lt_size hbase hset
  · obtain ⟨_, hset⟩ := exists_set_of_resolve? hd h hf
    exact SyntaxArena.index_lt_size hbase hset

/-- **Selection sets do not lead to one another without end**, nor deeper than there are
selection sets. -/
theorem exists_depths (hd : d.Closed) (h : build d = .ok index) :
    ∃ depth, d.Depths index depth ∧ ∀ set, depth set ≤ d.syntaxArena.selectionSets.size := by
  obtain ⟨hindex, -, hcycles⟩ := build_eq_ok_iff.1 h
  obtain ⟨order, horder⟩ := exists_order hcycles
  let size := d.syntaxArena.selectionSets.size
  -- fragments come first, and then the order of the sets that stand inside one another
  let depth (set : SelectionSetId) : Nat :=
    height (collect d.fragments).1 order d.syntaxArena set * (size + 1) + (size - set.index)
  have hbase : d.syntaxArena.bases.selectionSets = 0 := by rw [hd.bases]
  have hdepths : d.Depths index depth := by
    intro set node sel inner hset hsel hleads
    have hlt : set.index < size := SyntaxArena.index_lt_size hbase hset
    obtain hinner | ⟨id, s, f, rfl, hs, hf, rfl⟩ := leads_cases hleads
    · have hafter := hd.arena.descends hset hsel hinner
      have hheight : height (collect d.fragments).1 order d.syntaxArena inner ≤
          height (collect d.fragments).1 order d.syntaxArena set :=
        height_inner_le hd hset hsel hinner
      have hsum := Nat.mul_le_mul_right (size + 1) hheight
      exact Nat.add_lt_add_of_le_of_lt hsum (by omega)
    · rw [hindex] at hf
      have hheight := height_fragment_lt hd horder hset hsel hs hf
      calc depth f.selectionSet
          ≤ height _ order d.syntaxArena f.selectionSet * (size + 1) + size :=
            Nat.add_le_add_left (Nat.sub_le _ _) _
        _ < (height _ order d.syntaxArena f.selectionSet + 1) * (size + 1) := by
            rw [Nat.succ_mul]
            omega
        _ ≤ height _ order d.syntaxArena set * (size + 1) := Nat.mul_le_mul_right _ hheight
        _ ≤ depth set := Nat.le_add_right _ _
  exact hdepths.compress (leads_lt hd h)

/-- **Fragments do not nest deeper than there are selection sets.** -/
theorem exists_ranks (hd : d.Closed) (h : build d = .ok index) :
    ∃ rank, d.Ranks index rank ∧ ∀ set, rank set ≤ d.syntaxArena.selectionSets.size := by
  obtain ⟨depth, hdepths, hle⟩ := exists_depths hd h
  exact ⟨depth, hdepths.ranks, hle⟩

end FragmentIndex

end QueryPlan
