import QueryPlan.Proofs.Plan.Enumeration

/-!
# The lines of a plan, weighed

Let a line have a weight that does not depend on how far in it stands. What is printed below a key
weighs as much as what is stored there, and what is printed below the keys that stand there. In a
tree every key but the root stands in one place, so summed over all keys this says that the lines
below the root weigh as much as all that is stored (`Plan.weight_lines`).
-/

set_option autoImplicit false

open scoped List

namespace QueryPlan

theorem sum_map_flatMap {α β : Type} (xs : List α) (g : α → List β) (h : β → Nat) :
    ((xs.flatMap g).map h).sum = (xs.map fun x => ((g x).map h).sum).sum := by
  rw [List.map_flatMap, List.flatMap_def, List.sum_flatten, List.map_map]
  rfl

section Weight

variable (f : String → Nat)

/-- The weight of some lines. -/
def linesWeight (lines : List String) : Nat := (lines.map f).sum

/-- What a block weighs besides the lines inside. -/
def blockWeight (head : String) : Nat := f (head ++ " \x7b") + f "\x7d"

/-- What a selection weighs besides the lines below its key. -/
def Selection.weight (s : Selection) : Nat :=
  if s.selectionSet.isSome then blockWeight f s.head else f s.head

/-- What a selection set weighs besides the lines below the keys of its selections. -/
def SelectionSet.weight (set : SelectionSet) : Nat :=
  (set.parts.map fun part => (part.selections.map (Selection.weight f)).sum +
    (part.deferred.map fun d => blockWeight f d.head).sum).sum

/-- What all that is stored for a key weighs. -/
def SelectionVariants.weight (v : SelectionVariants) : Nat :=
  (v.sets.entries.map fun e => blockWeight f ("... on " ++ e.1) + e.2.weight f).sum

/-- What the operation and all that is stored weigh. -/
def Plan.weight (p : Plan) : Nat :=
  blockWeight f p.operation.head + (p.variants.values.map (SelectionVariants.weight f)).sum

theorem SelectionSet.weight_mk (t : ObjectType) (selections : List Selection)
    (deferred : List (DeferredFragment SelectionSet)) :
    SelectionSet.weight f ⟨t, selections, deferred⟩ =
      (selections.map (Selection.weight f)).sum +
        (deferred.map fun d => blockWeight f d.head + d.selectionSet.weight f).sum := by
  rw [weight, parts_eq, List.map_cons, List.sum_cons, sum_map_flatMap, List.sum_map_add]
  exact Nat.add_assoc _ _ _

variable {f}

theorem linesWeight_append (lines lines' : List String) :
    linesWeight f (lines ++ lines') = linesWeight f lines + linesWeight f lines' := by
  rw [linesWeight, List.map_append, List.sum_append, linesWeight, linesWeight]

theorem linesWeight_flatMap {α : Type} (xs : List α) (g : α → List String) :
    linesWeight f (xs.flatMap g) = (xs.map fun x => linesWeight f (g x)).sum :=
  sum_map_flatMap xs g f

variable (hf : ∀ depth line, f (indented depth line) = f line)
include hf

theorem linesWeight_block (depth : Nat) (head : String) (inside : List String) :
    linesWeight f (block depth head inside) = blockWeight f head + linesWeight f inside := by
  have hhead := hf depth (head ++ " \x7b")
  have hclose := hf depth "\x7d"
  simp only [block, linesWeight, blockWeight, List.map_cons, List.map_append, List.sum_cons,
    List.sum_append, List.map_nil, List.sum_nil, hhead, hclose, List.cons_append]
  omega

section Below

variable {children : Nat → SelectionSetId → List String} {below : SelectionSetId → Nat}
  (h : ∀ depth key, linesWeight f (children depth key) = below key)
include h

/-- The lines of some selections weigh as much as they do and what is printed below their keys. -/
theorem Selection.weight_lines (selections : List Selection) (depth : Nat) :
    linesWeight f (selections.flatMap (Selection.lines (children (depth + 1)) depth)) =
      (selections.map (Selection.weight f)).sum + ((selectionKeys selections).map below).sum := by
  induction selections with
  | nil => rfl
  | cons s rest ih =>
      rw [List.flatMap_cons, linesWeight_append, ih, List.map_cons, List.sum_cons]
      cases hkey : s.selectionSet with
      | none =>
          have hown : linesWeight f (s.lines (children (depth + 1)) depth) = s.weight f := by
            rw [Selection.lines_leaf hkey, Selection.weight, hkey]
            exact hf depth s.head
          rw [selectionKeys_cons_none hkey]
          omega
      | some key =>
          have hown : linesWeight f (s.lines (children (depth + 1)) depth) =
              s.weight f + below key := by
            rw [Selection.lines_inner hkey, linesWeight_block hf, h, Selection.weight, hkey]
            rfl
          rw [selectionKeys_cons_some hkey, List.map_cons, List.sum_cons]
          omega

/-- The lines of a set weigh as much as the set and what is printed below its keys. -/
theorem SelectionSet.weight_lines (set : SelectionSet) (depth : Nat) :
    linesWeight f (set.lines children depth) =
      set.weight f + (set.childKeys.map below).sum := by
  induction set using SelectionSet.induct generalizing depth with
  | mk t selections deferred ih =>
      have hselections := Selection.weight_lines hf h selections depth
      have hdeferred : linesWeight f (deferred.flatMap fun d =>
          block depth d.head (d.selectionSet.lines children (depth + 1))) =
            (deferred.map fun d => blockWeight f d.head + d.selectionSet.weight f).sum +
              ((deferred.flatMap fun d => d.selectionSet.childKeys).map below).sum := by
        rw [linesWeight_flatMap, sum_map_flatMap, ← List.sum_map_add]
        congr 1
        refine List.map_congr_left fun d hd => ?_
        rw [linesWeight_block hf, ih d hd]
        exact (Nat.add_assoc _ _ _).symm
      rw [lines_mk, linesWeight_append, hselections, hdeferred, weight_mk, childKeys_mk,
        List.map_append, List.sum_append]
      omega

end Below

namespace Plan

variable (p : Plan)

theorem weight_variantLines_succ {fuel : Nat} {below : SelectionSetId → Nat}
    (h : ∀ depth key, linesWeight f (p.variantLines fuel depth key) = below key)
    {key : SelectionSetId} {v : SelectionVariants} (hv : p.variants.get? key = some v)
    (depth : Nat) :
    linesWeight f (p.variantLines (fuel + 1) depth key) =
      v.weight f + ((v.sets.values.flatMap SelectionSet.childKeys).map below).sum := by
  rw [variantLines, hv]
  dsimp only
  rw [linesWeight_flatMap, sum_map_flatMap, OrderedMap.values, List.map_map, SelectionVariants.weight,
    ← List.sum_map_add]
  congr 1
  refine List.map_congr_left fun e _ => ?_
  rw [linesWeight_block hf, SelectionSet.weight_lines hf h]
  exact (Nat.add_assoc _ _ _).symm

/-- How far in the lines stand makes no difference. -/
theorem weight_variantLines_depth (fuel depth : Nat) (key : SelectionSetId) :
    linesWeight f (p.variantLines fuel depth key) =
      linesWeight f (p.variantLines fuel 0 key) := by
  induction fuel generalizing depth key with
  | zero => rfl
  | succ fuel ih =>
      cases hv : p.variants.get? key with
      | none => rw [variantLines, variantLines, hv]
      | some v =>
          rw [p.weight_variantLines_succ hf ih hv depth, p.weight_variantLines_succ hf ih hv 0]

/-- The lines of a plan that is a tree weigh as much as all that is stored in it, if more fuel adds
no lines. -/
theorem weight_lines (htree : p.IsTree)
    (hends : p.variantLines (p.variants.size + 1) = p.variantLines p.variants.size) :
    linesWeight f p.lines = p.weight f := by
  let below (key : SelectionSetId) : Nat :=
    linesWeight f (p.variantLines p.variants.size 0 key)
  have hbelow := p.weight_variantLines_depth hf p.variants.size
  have hstep : ∀ e ∈ p.variants.entries, below e.1 =
      e.2.weight f + ((e.2.sets.values.flatMap SelectionSet.childKeys).map below).sum := by
    intro e he
    have hv : p.variants.get? e.1 = some e.2 := OrderedMap.get?_eq_some_iff.2 he
    have hsucc := p.weight_variantLines_succ hf hbelow hv 0
    rwa [hends] at hsucc
  -- summed over all keys, on the one hand each key counts for what stands there
  have hstored : (p.variants.keys.map below).sum =
      (p.variants.values.map (SelectionVariants.weight f)).sum + (p.childKeys.map below).sum := by
    calc (p.variants.keys.map below).sum
        = (p.variants.entries.map fun e => below e.1).sum := by
          rw [OrderedMap.keys, List.map_map]
          rfl
      _ = (p.variants.entries.map fun e => e.2.weight f +
            ((e.2.sets.values.flatMap SelectionSet.childKeys).map below).sum).sum := by
          rw [List.map_congr_left hstep]
      _ = (p.variants.values.map (SelectionVariants.weight f)).sum +
            (p.childKeys.map below).sum := by
          rw [List.sum_map_add, childKeys, VariantMap.childKeys, sum_map_flatMap,
            OrderedMap.values, List.map_map, List.map_map]
          rfl
  -- and on the other hand the keys are the root and those that are owned
  have hperm : p.variants.keys ~ p.root :: p.childKeys := by
    refine (List.perm_ext_iff_of_nodup p.variants.nodup_keys
      (List.nodup_cons.2 ⟨htree.root_free, htree.nodup⟩)).2 fun key => ?_
    show key ∈ p.variants.keys ↔ _
    rw [htree.mem_keys_iff, List.mem_cons]
  have howned : (p.variants.keys.map below).sum =
      below p.root + (p.childKeys.map below).sum := by
    rw [(hperm.map below).sum_nat, List.map_cons, List.sum_cons]
  have hroot : linesWeight f (p.variantLines p.variants.size 1 p.root) = below p.root :=
    hbelow 1 p.root
  rw [lines, linesWeight_block hf, hroot, weight]
  omega

end Plan

end Weight

end QueryPlan
