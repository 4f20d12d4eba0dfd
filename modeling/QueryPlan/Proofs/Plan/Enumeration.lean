import QueryPlan.Proofs.Document.Acyclic
import QueryPlan.Proofs.Plan.Numbering
import QueryPlan.Proofs.Plan.Printed
import QueryPlan.Proofs.Plan.Tree

/-!
# Every selection is met once

Whoever reads a plan from the root goes from each selection down to what is compiled for its key,
for every type in turn, and after the selections of a set to its deferred fragments. This is how a
plan is printed. The walk comes to an end, since each key leads to keys of a lower level, and the
numbers of the selections that are met are exactly those below the count of the plan.
-/

set_option autoImplicit false

open scoped List

namespace QueryPlan

/-! ## The walk -/

/-- All that is met in a selection set: each selection, followed by what is below its key, and
then the deferred fragments. -/
def SelectionSet.met (below : SelectionSetId → List Selection) (set : SelectionSet) :
    List Selection :=
  set.parts.flatMap fun part => part.selections.flatMap fun s => s :: s.selectionSet.elim [] below

/-- All selections that are met below a key, set by set; `fuel` bounds how many keys lead to one
another. -/
def Plan.met (p : Plan) : Nat → SelectionSetId → List Selection
  | 0, _ => []
  | fuel + 1, key =>
    match p.variants.get? key with
    | none => []
    | some v => v.sets.values.flatMap (SelectionSet.met (p.met fuel))

/-- All selections that are met below a key, with as much fuel as printing has. -/
def Plan.metBelow (p : Plan) (key : SelectionSetId) : List Selection := p.met p.variants.size key

theorem SelectionSet.met_mk (below : SelectionSetId → List Selection) (t : ObjectType)
    (selections : List Selection) (deferred : List (DeferredFragment SelectionSet)) :
    SelectionSet.met below ⟨t, selections, deferred⟩ =
      (selections.flatMap fun s => s :: s.selectionSet.elim [] below) ++
        deferred.flatMap fun d => d.selectionSet.met below := by
  rw [met, parts_eq, List.flatMap_cons, List.flatMap_assoc]
  rfl

theorem Plan.met_succ {p : Plan} {key : SelectionSetId} {v : SelectionVariants}
    (h : p.variants.get? key = some v) (fuel : Nat) :
    p.met (fuel + 1) key = v.sets.values.flatMap (SelectionSet.met (p.met fuel)) := by
  rw [met, h]

/-- What is met depends only on what is below the keys of the set. -/
theorem SelectionSet.met_congr {below below' : SelectionSetId → List Selection}
    {set : SelectionSet} (h : ∀ key ∈ set.childKeys, below key = below' key) :
    set.met below = set.met below' := by
  refine List.flatMap_congr fun part hpart => List.flatMap_congr fun s hs => ?_
  cases hkey : s.selectionSet with
  | none => rfl
  | some key =>
      have hmem : key ∈ set.childKeys :=
        List.mem_flatMap.2 ⟨part, hpart, List.mem_filterMap.2 ⟨s, hs, hkey⟩⟩
      rw [Option.elim_some, Option.elim_some, h key hmem]

/-- The selections of a set come first if what is below their keys is put behind them. -/
theorem met_selections_perm (below : SelectionSetId → List Selection)
    (selections : List Selection) :
    (selections.flatMap fun s => s :: s.selectionSet.elim [] below).Perm
      (selections ++ (selectionKeys selections).flatMap below) := by
  induction selections with
  | nil => exact .refl _
  | cons s rest ih =>
      cases hkey : s.selectionSet with
      | none =>
          rw [List.flatMap_cons, hkey, selectionKeys_cons_none hkey]
          exact ih.cons s
      | some key =>
          rw [List.flatMap_cons, hkey, selectionKeys_cons_some hkey, List.flatMap_cons,
            List.cons_append, List.cons_append, Option.elim_some]
          refine List.Perm.cons s ?_
          calc below key ++ rest.flatMap (fun s => s :: s.selectionSet.elim [] below)
              ~ below key ++ (rest ++ (selectionKeys rest).flatMap below) := ih.append_left _
            _ ~ rest ++ (below key ++ (selectionKeys rest).flatMap below) :=
                List.perm_append_comm_assoc _ _ _

/-! ## The walk of a printer -/

/-- The line is the one that a selection is printed on, at whatever depth. -/
def Selection.Prints (s : Selection) (line : String) : Prop :=
  ∃ depth, line = indented depth s.head ∨ line = indented depth (s.head ++ " \x7b")

/-- The selections are printed on some of the lines, in their order. -/
abbrev Shown (met : List Selection) (lines : List String) : Prop :=
  List.SublistForall₂ Selection.Prints met lines

namespace Shown

variable {met met' : List Selection} {lines lines' : List String}

theorem append (h : Shown met lines) (h' : Shown met' lines') :
    Shown (met ++ met') (lines ++ lines') := by
  obtain ⟨heads, hheads, hsub⟩ := List.sublistForall₂_iff.1 h
  obtain ⟨heads', hheads', hsub'⟩ := List.sublistForall₂_iff.1 h'
  exact List.sublistForall₂_iff.2 ⟨heads ++ heads', List.rel_append hheads hheads',
    hsub.append hsub'⟩

theorem flatMap {α : Type} {xs : List α} {f : α → List Selection} {g : α → List String}
    (h : ∀ x ∈ xs, Shown (f x) (g x)) : Shown (xs.flatMap f) (xs.flatMap g) := by
  induction xs with
  | nil => exact .nil
  | cons x xs ih =>
      rw [List.forall_mem_cons] at h
      rw [List.flatMap_cons, List.flatMap_cons]
      exact h.1.append (ih h.2)

theorem append_right (h : Shown met lines) : Shown met (lines ++ lines') := by
  have happend := h.append (.nil : Shown [] lines')
  rwa [List.append_nil] at happend

theorem block (h : Shown met lines) (depth : Nat) (head : String) :
    Shown met (block depth head lines) :=
  h.append_right.cons_right

end Shown

theorem Selection.shown {below : SelectionSetId → List Selection}
    {children : SelectionSetId → List String} (h : ∀ key, Shown (below key) (children key))
    (depth : Nat) (s : Selection) :
    Shown (s :: s.selectionSet.elim [] below) (s.lines children depth) := by
  unfold Selection.lines
  cases s.selectionSet with
  | none => exact .cons ⟨depth, .inl rfl⟩ .nil
  | some key => exact .cons ⟨depth, .inr rfl⟩ (h key).append_right

/-- What is met in a set is printed in the same order. -/
theorem SelectionSet.shown {below : SelectionSetId → List Selection}
    {children : Nat → SelectionSetId → List String}
    (h : ∀ depth key, Shown (below key) (children depth key)) (set : SelectionSet) (depth : Nat) :
    Shown (set.met below) (set.lines children depth) := by
  induction set using SelectionSet.induct generalizing depth with
  | mk t selections deferred ih =>
      rw [met_mk, lines_mk]
      refine .append (.flatMap fun s _ => s.shown (h (depth + 1)) depth) (.flatMap fun d hd => ?_)
      exact (ih d hd (depth + 1)).block depth d.head

/-- What is met below a key is printed in the same order. -/
theorem Plan.shown (p : Plan) (fuel depth : Nat) (key : SelectionSetId) :
    Shown (p.met fuel key) (p.variantLines fuel depth key) := by
  induction fuel generalizing depth key with
  | zero => exact .nil
  | succ fuel ih =>
      rw [met, variantLines]
      cases p.variants.get? key with
      | none => exact .nil
      | some v =>
          dsimp only
          rw [OrderedMap.values, List.flatMap_map]
          exact .flatMap fun e _ => (e.2.shown ih (depth + 1)).block depth _

/-! ## Numbers that are met -/

/-- The numbers are those from the first one to the one before the next, in whatever order. -/
def Fills (ids : List Nat) (first next : Nat) : Prop :=
  ∃ count, next = first + count ∧ ids ~ List.range' first count

namespace Fills

variable {ids ids' : List Nat} {first middle next : Nat}

theorem nil (n : Nat) : Fills [] n n := ⟨0, rfl, .refl _⟩

theorem append (h : Fills ids first middle) (h' : Fills ids' middle next) :
    Fills (ids ++ ids') first next := by
  obtain ⟨count, rfl, hperm⟩ := h
  obtain ⟨count', rfl, hperm'⟩ := h'
  refine ⟨count + count', Nat.add_assoc _ _ _, ?_⟩
  calc ids ++ ids' ~ List.range' first count ++ List.range' (first + count) count' :=
        hperm.append hperm'
    _ = List.range' first (count + count') := by rw [List.range'_append_1]

theorem perm (h : Fills ids first next) (hperm : ids' ~ ids) : Fills ids' first next := by
  obtain ⟨count, hnext, hids⟩ := h
  exact ⟨count, hnext, hperm.trans hids⟩

theorem le (h : Fills ids first next) : first ≤ next := by
  obtain ⟨count, rfl, -⟩ := h
  exact Nat.le_add_right first count

theorem bounds (h : Fills ids first next) {id : Nat} (hid : id ∈ ids) : first ≤ id ∧ id < next := by
  obtain ⟨count, rfl, hperm⟩ := h
  exact List.mem_range'_1.1 (hperm.mem_iff.1 hid)

end Fills

/-- If what each item stands for fills its stretch, what all of them stand for fills the whole
one. -/
theorem Threads.fills {α : Type} {R : Nat → α → Nat → Prop} {f : α → List Nat} {xs : List α}
    {n k : Nat} (h : Threads R n xs k) (hf : ∀ {n x k}, R n x k → Fills (f x) n k) :
    Fills (xs.flatMap f) n k := by
  induction h with
  | nil => exact .nil _
  | cons hx _ ih =>
      rw [List.flatMap_cons]
      exact (hf hx).append ih

section Numbered

variable {p : Plan} {n first next : Nat}

theorem KeyNumbered.fills {key : SelectionSetId} {fuel : Nat}
    (h : KeyNumbered p.variants (NumberedWithin p.variants n) first key next)
    (hbelow : ∀ {first set next}, NumberedWithin p.variants n first set next →
      Fills ((set.met (p.met fuel)).map (·.id)) first next) :
    Fills ((p.met (fuel + 1) key).map (·.id)) first next := by
  obtain ⟨v, hv, hthreads⟩ := h
  rw [Plan.met_succ hv, List.map_flatMap]
  exact hthreads.fills hbelow

/-- The numbers that are met in a numbered set are those of its stretch. -/
theorem NumberedWithin.fills {set : SelectionSet} (h : NumberedWithin p.variants n first set next)
    {fuel : Nat} (hfuel : n ≤ fuel) : Fills ((set.met (p.met fuel)).map (·.id)) first next := by
  induction n generalizing first set next fuel with
  | zero => exact h.elim
  | succ n ih =>
      obtain ⟨hdeferred, hids, hchildren⟩ := h
      rename_i t selections deferred own
      obtain ⟨f, rfl⟩ := Nat.exists_eq_add_of_le' (Nat.le_of_add_left_le hfuel)
      let below := p.met (f + 1)
      have hbefore : Fills (deferred.flatMap fun d => (d.selectionSet.met below).map (·.id))
          first own := hdeferred.fills fun hd => ih hd (Nat.le_of_succ_le hfuel)
      have hown : Fills (selections.map (·.id)) own (own + selections.length) :=
        ⟨_, rfl, .of_eq hids⟩
      have hafter : Fills ((selectionKeys selections).flatMap fun key => (below key).map (·.id))
          (own + selections.length) next :=
        hchildren.fills fun hkey => hkey.fills fun hset => ih hset (Nat.le_of_succ_le_succ hfuel)
      -- the walk meets the deferred fragments last, and each key right after its selection
      refine (hbefore.append (hown.append hafter)).perm ?_
      rw [SelectionSet.met_mk, List.map_append, List.map_flatMap (l := deferred)]
      calc (selections.flatMap fun s => s :: s.selectionSet.elim [] below).map (·.id) ++
            deferred.flatMap (fun d => (d.selectionSet.met below).map (·.id))
          ~ (selections ++ (selectionKeys selections).flatMap below).map (·.id) ++
              deferred.flatMap (fun d => (d.selectionSet.met below).map (·.id)) :=
            ((met_selections_perm _ _).map _).append_right _
        _ = (selections.map (·.id) ++
              (selectionKeys selections).flatMap fun key => (below key).map (·.id)) ++
              deferred.flatMap (fun d => (d.selectionSet.met below).map (·.id)) := by
            rw [List.map_append, List.map_flatMap]
        _ ~ deferred.flatMap (fun d => (d.selectionSet.met below).map (·.id)) ++
              (selections.map (·.id) ++
                (selectionKeys selections).flatMap fun key => (below key).map (·.id)) :=
            List.perm_append_comm

/-- A set that is numbered has numbered parts. -/
theorem NumberedWithin.part {variants : VariantMap} {set part : SelectionSet}
    (h : NumberedWithin variants n first set next) (hpart : part ∈ set.parts) :
    ∃ m first' next', m < n ∧
      SelectionSet.Numbered variants (NumberedWithin variants m) first' part next' := by
  induction n generalizing first set next with
  | zero => exact h.elim
  | succ n ih =>
      rw [SelectionSet.parts_eq, List.mem_cons, List.mem_flatMap] at hpart
      rcases hpart with rfl | ⟨d, hd, hpart⟩
      · exact ⟨n, first, next, Nat.lt_succ_self n, h⟩
      · obtain ⟨hdeferred, -, -⟩ := h
        obtain ⟨first', next', hset⟩ := hdeferred.exists_of_mem hd
        obtain ⟨m, first', next', hlt, hnumbered⟩ := ih hset hpart
        exact ⟨m, first', next', hlt.trans (Nat.lt_succ_self n), hnumbered⟩

/-- The keys of a numbered set are numbered, on a lower level. -/
theorem NumberedWithin.child {variants : VariantMap} {set : SelectionSet} {key : SelectionSetId}
    (h : NumberedWithin variants n first set next) (hkey : key ∈ set.childKeys) :
    ∃ m first' next', m < n ∧
      KeyNumbered variants (NumberedWithin variants m) first' key next' := by
  obtain ⟨part, hpart, hkey⟩ := List.mem_flatMap.1 hkey
  obtain ⟨m, _, _, hlt, -, -, hchildren⟩ := h.part hpart
  obtain ⟨first', next', hnumbered⟩ := hchildren.exists_of_mem hkey
  exact ⟨m, first', next', hlt, hnumbered⟩

end Numbered

/-! ## The walk comes to an end -/

/-- From the key one selection leads to the other. -/
def Plan.LeadsTo (p : Plan) (key child : SelectionSetId) : Prop :=
  ∃ v set, p.variants.get? key = some v ∧ set ∈ v.sets.values ∧ child ∈ set.childKeys

/-- Every key that is reached from a numbered one is numbered. -/
theorem exists_numbered_of_reaches {p : Plan} {n first next : Nat}
    (hroot : KeyNumbered p.variants (NumberedWithin p.variants n) first p.root next)
    {key : SelectionSetId} (h : VariantMap.Reaches p.variants [p.root] key) :
    ∃ m first' next', KeyNumbered p.variants (NumberedWithin p.variants m) first' key next' := by
  induction h with
  | root hkey =>
      obtain rfl := List.mem_singleton.1 hkey
      exact ⟨n, first, next, hroot⟩
  | child _ hv hset hkey ih =>
      obtain ⟨m, _, _, v, hv', hthreads⟩ := ih
      rw [hv, Option.some_inj] at hv'
      subst hv'
      obtain ⟨_, _, hnumbered⟩ := hthreads.exists_of_mem hset
      obtain ⟨m', first', next', -, hchild⟩ := hnumbered.child hkey
      exact ⟨m', first', next', hchild⟩

/-- In a tree whose root is numbered, keys have levels that go down along selections, and there
are no more levels than keys. -/
theorem Plan.exists_levels {p : Plan} (htree : p.IsTree) {n first next : Nat}
    (hroot : KeyNumbered p.variants (NumberedWithin p.variants n) first p.root next) :
    ∃ level : SelectionSetId → Nat, (∀ key child, p.LeadsTo key child → level child < level key) ∧
      ∀ key, level key < p.variants.size := by
  let depths (key : SelectionSetId) : Set Nat :=
    {m | ∃ first next, KeyNumbered p.variants (NumberedWithin p.variants m) first key next}
  -- the least depth at which a key is numbered goes down
  have hdown : ∀ key child, p.LeadsTo key child → sInf (depths child) < sInf (depths key) := by
    rintro key child ⟨v, set, hv, hset, hchild⟩
    have hmem : key ∈ p.variants.keys := OrderedMap.mem_keys_iff.2 ⟨v, hv⟩
    have hne : (depths key).Nonempty := exists_numbered_of_reaches hroot (htree.reached key hmem)
    obtain ⟨_, _, v', hv', hthreads⟩ := Nat.sInf_mem hne
    rw [hv, Option.some_inj] at hv'
    subst hv'
    obtain ⟨_, _, hnumbered⟩ := hthreads.exists_of_mem hset
    obtain ⟨m', first', next', hlt, hbelow⟩ := hnumbered.child hchild
    have hmem' : m' ∈ depths child := ⟨first', next', hbelow⟩
    exact (Nat.sInf_le hmem').trans_lt hlt
  have hchild : ∀ key child, p.LeadsTo key child → child ∈ p.variants.keys.toFinset.erase p.root := by
    rintro key child ⟨v, set, hv, hset, hchild⟩
    have hmem : child ∈ p.childKeys :=
      List.mem_flatMap.2 ⟨v, OrderedMap.mem_values_iff.2 ⟨key, hv⟩,
        List.mem_flatMap.2 ⟨set, hset, hchild⟩⟩
    refine Finset.mem_erase.2 ⟨fun heq => htree.root_free (heq ▸ hmem), ?_⟩
    exact List.mem_toFinset.2 ((htree.mem_keys_iff child).2 (Or.inr hmem))
  obtain ⟨level, hlevel, hle⟩ := exists_measure_le_card hdown _ hchild
  refine ⟨level, hlevel, fun key => (hle key).trans_lt ?_⟩
  -- nothing leads to the root, so it does not count
  have hrootKey : p.root ∈ p.variants.keys.toFinset :=
    List.mem_toFinset.2 ((htree.mem_keys_iff p.root).2 (Or.inl rfl))
  calc (p.variants.keys.toFinset.erase p.root).card
      < p.variants.keys.toFinset.card := Finset.card_erase_lt_of_mem hrootKey
    _ ≤ p.variants.keys.length := List.toFinset_card_le _
    _ = p.variants.size := List.length_map _

section Levels

variable {p : Plan} {level : SelectionSetId → Nat} {n m : Nat} {key : SelectionSetId}

/-- More fuel than the level of a key makes no difference to what is met. -/
theorem Plan.met_eq_of_lt (hlevel : ∀ key child, p.LeadsTo key child → level child < level key)
    (hn : level key < n) (hm : level key < m) : p.met n key = p.met m key := by
  induction n generalizing m key with
  | zero => exact absurd hn (Nat.not_lt_zero _)
  | succ n ih =>
      cases m with
      | zero => exact absurd hm (Nat.not_lt_zero _)
      | succ m =>
          cases hv : p.variants.get? key with
          | none => rw [met, met, hv]
          | some v =>
              rw [met_succ hv, met_succ hv]
              refine List.flatMap_congr fun set hset => SelectionSet.met_congr fun child hchild => ?_
              have hlt := hlevel key child ⟨v, set, hv, hset, hchild⟩
              exact ih (by omega) (by omega)

/-- Nor does it make any to what is printed. -/
theorem Plan.variantLines_eq_of_lt
    (hlevel : ∀ key child, p.LeadsTo key child → level child < level key)
    (hn : level key < n) (hm : level key < m) (depth : Nat) :
    p.variantLines n depth key = p.variantLines m depth key := by
  induction n generalizing m key depth with
  | zero => exact absurd hn (Nat.not_lt_zero _)
  | succ n ih =>
      cases m with
      | zero => exact absurd hm (Nat.not_lt_zero _)
      | succ m =>
          rw [variantLines, variantLines]
          cases hv : p.variants.get? key with
          | none => rfl
          | some v =>
              refine List.flatMap_congr fun (type, set) hentry => ?_
              have hset : set ∈ v.sets.values := List.mem_map_of_mem hentry
              dsimp only
              rw [set.lines_congr fun child hchild depth => ?_]
              have hlt := hlevel key child ⟨v, set, hv, hset, hchild⟩
              exact ih (by omega) (by omega) depth

end Levels

/-! ## The order of the numbers -/

/-- The selections of the set are numbered one after another, before all that is below their
keys, and after all that is in the deferred fragments of the set. -/
structure Plan.InOrder (p : Plan) (set : SelectionSet) : Prop where
  consecutive : ∃ first, set.selections.map (·.id) = List.range' first set.selections.length
  lt_below : ∀ s ∈ set.selections, ∀ key, s.selectionSet = some key →
    ∀ t ∈ p.metBelow key, s.id < t.id
  deferred_lt : ∀ d ∈ set.deferred, ∀ t ∈ d.selectionSet.met p.metBelow,
    ∀ s ∈ set.selections, t.id < s.id

section Order

variable {p : Plan} {n first next : Nat}

theorem NumberedWithin.le {set : SelectionSet} (h : NumberedWithin p.variants n first set next) :
    first ≤ next := (h.fills (Nat.le_refl n)).le

theorem KeyNumbered.le {key : SelectionSetId}
    (h : KeyNumbered p.variants (NumberedWithin p.variants n) first key next) : first ≤ next := by
  obtain ⟨_, -, hthreads⟩ := h
  exact hthreads.le NumberedWithin.le

/-- A numbered set is in order, if the walk below its keys ends. -/
theorem SelectionSet.Numbered.inOrder {set : SelectionSet}
    (h : SelectionSet.Numbered p.variants (NumberedWithin p.variants n) first set next)
    (hends : ∀ fuel ≥ p.variants.size, p.met fuel = p.metBelow) : p.InOrder set := by
  obtain ⟨hdeferred, hids, hchildren⟩ := h
  rename_i t selections deferred own
  have hown : ∀ s ∈ selections, own ≤ s.id ∧ s.id < own + selections.length := by
    intro s hs
    have hmem : s.id ∈ selections.map (·.id) := List.mem_map_of_mem hs
    rw [hids] at hmem
    exact List.mem_range'_1.1 hmem
  have hmet : p.met (max n p.variants.size + 1) = p.metBelow := hends _ (by omega)
  refine ⟨⟨own, hids⟩, fun s hs key hkey t ht => ?_, fun d hd t ht s hs => ?_⟩
  · have hmem : key ∈ selectionKeys selections := List.mem_filterMap.2 ⟨s, hs, hkey⟩
    obtain ⟨first', _, hfirst, hnumbered, -⟩ := hchildren.exists_within KeyNumbered.le hmem
    rw [← hmet] at ht
    have hfills := hnumbered.fills fun hset => hset.fills (Nat.le_max_left n p.variants.size)
    have hbounds := hfills.bounds (List.mem_map_of_mem ht)
    have hid := hown s hs
    omega
  · obtain ⟨_, next', -, hnumbered, hnext⟩ := hdeferred.exists_within NumberedWithin.le hd
    rw [← hmet] at ht
    have hfuel : n ≤ max n p.variants.size + 1 := by omega
    have hbounds := (hnumbered.fills hfuel).bounds (List.mem_map_of_mem ht)
    have hid := hown s hs
    omega

end Order

/-- The number that stands for none: no selection of a plan has it, unless there are as many. -/
def Selection.unassigned : Nat := 2 ^ 32 - 1

namespace CompileInput

variable {σ : Type} {input : CompileInput σ}

variable {bound : Nat} {name : Option String} {memory memory' : σ} {p : Plan}

/-- The keys of a compiled plan have levels that go down along selections. -/
theorem exists_levels_of_compileWithin (hschema : input.schema.Built)
    (hdocument : input.document.Built) (hlawful : input.pipeline.Lawful)
    (h : input.compileWithin bound name memory = (.ok p, memory')) :
    ∃ level : SelectionSetId → Nat, (∀ key child, p.LeadsTo key child → level child < level key) ∧
      ∀ key, level key < p.variants.size :=
  p.exists_levels (compiled_of_compileWithin hschema hdocument hlawful h).isTree
    (numbered_of_compileWithin hschema hdocument hlawful h)

/-- No more fuel than printing has changes what is met in a compiled plan, or how it is
printed. -/
theorem walk_eq_of_compileWithin (hschema : input.schema.Built)
    (hdocument : input.document.Built) (hlawful : input.pipeline.Lawful)
    (h : input.compileWithin bound name memory = (.ok p, memory')) :
    ∀ fuel ≥ p.variants.size, p.met fuel = p.metBelow ∧
      p.variantLines fuel = p.variantLines p.variants.size := by
  obtain ⟨level, hlevel, hlt⟩ := exists_levels_of_compileWithin hschema hdocument hlawful h
  refine fun fuel hfuel => ⟨funext fun key => ?_, funext fun depth => funext fun key => ?_⟩
  · exact p.met_eq_of_lt hlevel ((hlt key).trans_le hfuel) (hlt key)
  · exact p.variantLines_eq_of_lt hlevel ((hlt key).trans_le hfuel) (hlt key) depth

/-- The numbers that are met from the root of a compiled plan are those below its count. -/
theorem met_perm_of_compileWithin (hschema : input.schema.Built)
    (hdocument : input.document.Built) (hlawful : input.pipeline.Lawful)
    (h : input.compileWithin bound name memory = (.ok p, memory')) :
    (p.metBelow p.root).map (·.id) ~ List.range p.selectionCount := by
  have hends := walk_eq_of_compileWithin hschema hdocument hlawful h
  obtain ⟨count, hcount, hperm⟩ := (numbered_of_compileWithin hschema hdocument hlawful h).fills
    fun hset => hset.fills (Nat.le_max_left bound p.variants.size)
  rw [(hends _ (by omega)).1] at hperm
  rwa [List.range_eq_range', hcount, Nat.zero_add]

/-- **Every selection is met once.** With whatever lawful optimizers and from whatever operation
a plan was compiled: the keys that a reader follows down from any key have levels, so the walk
ends, and no more fuel than printing has changes what is met or printed. What is met from the
root is printed in that order, its numbers are those below the count of the plan, once each, and
below every key the numbers are in order. -/
theorem ids_met_once (hschema : input.schema.Built) (hdocument : input.document.Built)
    (hlawful : input.pipeline.Lawful)
    (h : input.compileWithin bound name memory = (.ok p, memory')) :
    (∃ level : SelectionSetId → Nat,
      ∀ key child, p.LeadsTo key child → level child < level key) ∧
    (∀ fuel ≥ p.variants.size, p.met fuel = p.metBelow ∧
      p.variantLines fuel = p.variantLines p.variants.size) ∧
    Shown (p.metBelow p.root) p.lines ∧
    (p.metBelow p.root).map (·.id) ~ List.range p.selectionCount ∧
    (p.selectionCount < Selection.unassigned →
      ∀ s ∈ p.metBelow p.root, s.id ≠ Selection.unassigned) ∧
    ∀ key v, p.variants.get? key = some v → ∀ set ∈ v.sets.values, ∀ part ∈ set.parts,
      p.InOrder part := by
  have hends := walk_eq_of_compileWithin hschema hdocument hlawful h
  have hperm := met_perm_of_compileWithin hschema hdocument hlawful h
  obtain ⟨level, hlevel, -⟩ := exists_levels_of_compileWithin hschema hdocument hlawful h
  refine ⟨⟨level, hlevel⟩, hends, (p.shown p.variants.size 1 p.root).block 0 _, hperm, ?_, ?_⟩
  · intro hcount s hs
    have hmem := List.mem_range.1 (hperm.mem_iff.1 (List.mem_map_of_mem hs))
    omega
  · intro key v hv set hset part hpart
    have hmem : key ∈ p.variants.keys := OrderedMap.mem_keys_iff.2 ⟨v, hv⟩
    have htree := (compiled_of_compileWithin hschema hdocument hlawful h).isTree
    have hroot := numbered_of_compileWithin hschema hdocument hlawful h
    obtain ⟨_, _, _, v', hv', hthreads⟩ := exists_numbered_of_reaches hroot (htree.reached key hmem)
    rw [hv, Option.some_inj] at hv'
    subst hv'
    obtain ⟨_, _, hnumbered⟩ := hthreads.exists_of_mem hset
    obtain ⟨_, _, _, -, hpartNumbered⟩ := hnumbered.part hpart
    exact hpartNumbered.inOrder fun fuel hfuel => (hends fuel hfuel).1

end CompileInput

namespace Linked

theorem ids_met_once_linked : ∃ p memory, input.compileWithin 10 none [] = (.ok p, memory) ∧
    (∃ level : SelectionSetId → Nat,
      ∀ key child, p.LeadsTo key child → level child < level key) ∧
    (∀ fuel ≥ p.variants.size, p.met fuel = p.metBelow ∧
      p.variantLines fuel = p.variantLines p.variants.size) ∧
    Shown (p.metBelow p.root) p.lines ∧
    (p.metBelow p.root).map (·.id) ~ List.range p.selectionCount ∧
    (p.selectionCount < Selection.unassigned →
      ∀ s ∈ p.metBelow p.root, s.id ≠ Selection.unassigned) ∧
    ∀ key v, p.variants.get? key = some v → ∀ set ∈ v.sets.values, ∀ part ∈ set.parts,
      p.InOrder part := by
  obtain ⟨p, memory, h⟩ :=
    exists_eq_ok (x := input.compileWithin 10 none []) (by decide +kernel)
  exact ⟨p, memory, h, CompileInput.ids_met_once schema_built document_built pipeline_lawful h⟩

end Linked

namespace Grafted

/-- A graft takes a key that a copy gets later on. What is compiled for the copy is then met below
both, and one number twice. -/
theorem ids_met_twice : input.schema.Built ∧ input.document.Built ∧ ∃ p memory,
    input.compile none () = (.ok p, memory) ∧ p.selectionCount < Selection.unassigned ∧
      Shown (p.metBelow p.root) p.lines ∧ ((p.metBelow p.root).map (·.id)).count 6 = 2 ∧
      ¬ ((p.metBelow p.root).map (·.id) ~ List.range p.selectionCount) := by
  obtain ⟨p, memory, h, htest⟩ := exists_eq_ok_and (x := input.compile none ())
    (t := fun p : Plan => p.selectionCount < Selection.unassigned ∧
      ((p.metBelow p.root).map (·.id)).count 6 = 2) (by decide +kernel)
  obtain ⟨hcount, htwice⟩ := of_decide_eq_true htest
  refine ⟨schema_built, stockDocument_built, p, memory, h, hcount,
    (p.shown p.variants.size 1 p.root).block 0 _, htwice, fun hperm => ?_⟩
  -- no number is listed twice
  have hone : (List.range p.selectionCount).count 6 ≤ 1 :=
    List.nodup_iff_count_le_one.1 List.nodup_range 6
  rw [← hperm.count_eq, htwice] at hone
  omega

end Grafted

end QueryPlan
