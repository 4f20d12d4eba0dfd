import QueryPlan.Plan.Print
import QueryPlan.Proofs.Plan.Ownership

/-!
# Printed selection sets

The lines of a selection set are those of its selections and then those of its deferred fragments,
a block each. `SelectionSet.induct` goes down deferred fragments in the same way.
-/

set_option autoImplicit false

namespace QueryPlan

/-- What holds of a selection set whenever it holds of those of its deferred fragments holds of
all selection sets. -/
theorem SelectionSet.induct {P : SelectionSet → Prop}
    (mk : ∀ t selections deferred, (∀ d ∈ deferred, P d.selectionSet) →
      P ⟨t, selections, deferred⟩) (set : SelectionSet) : P set := by
  cases set with
  | mk t selections deferred =>
      exact mk t selections deferred fun d hd => SelectionSet.induct mk d.selectionSet
termination_by sizeOf set
decreasing_by
  have hlt := List.sizeOf_lt_of_mem hd
  cases d
  simp only [DeferredFragment.mk.sizeOf_spec, SelectionSet.mk.sizeOf_spec] at hlt ⊢
  omega

variable {children : Nat → SelectionSetId → List String}

theorem Selection.lines_leaf {s : Selection} (h : s.selectionSet = none)
    (below : SelectionSetId → List String) (depth : Nat) :
    s.lines below depth = [indented depth s.head] := by
  rw [Selection.lines, h]

theorem Selection.lines_inner {s : Selection} {key : SelectionSetId}
    (h : s.selectionSet = some key) (below : SelectionSetId → List String) (depth : Nat) :
    s.lines below depth = block depth s.head (below key) := by
  rw [Selection.lines, h]

theorem deferredLines_eq (depth : Nat) (ds : List (DeferredFragment SelectionSet)) :
    deferredLines children depth ds =
      ds.flatMap fun d => block depth d.head (d.selectionSet.lines children (depth + 1)) := by
  induction ds with
  | nil => rfl
  | cons d ds ih =>
      cases d
      rw [deferredLines, deferredFragmentLines, ih, List.flatMap_cons]

theorem SelectionSet.lines_mk (depth : Nat) (t : ObjectType) (selections : List Selection)
    (deferred : List (DeferredFragment SelectionSet)) :
    SelectionSet.lines children depth ⟨t, selections, deferred⟩ =
      selections.flatMap (Selection.lines (children (depth + 1)) depth) ++
        deferred.flatMap fun d => block depth d.head (d.selectionSet.lines children (depth + 1)) := by
  rw [SelectionSet.lines, deferredLines_eq]

/-- What is printed depends only on what is printed below the keys of the set. -/
theorem SelectionSet.lines_congr {children' : Nat → SelectionSetId → List String}
    (set : SelectionSet) (h : ∀ key ∈ set.childKeys, ∀ depth, children depth key = children' depth key)
    (depth : Nat) : set.lines children depth = set.lines children' depth := by
  induction set using SelectionSet.induct generalizing depth with
  | mk t selections deferred ih =>
      rw [SelectionSet.childKeys_mk] at h
      rw [lines_mk, lines_mk]
      congr 1
      · refine List.flatMap_congr fun s hs => ?_
        cases hkey : s.selectionSet with
        | none => rw [Selection.lines_leaf hkey, Selection.lines_leaf hkey]
        | some key =>
            have hmem : key ∈ selectionKeys selections := List.mem_filterMap.2 ⟨s, hs, hkey⟩
            rw [Selection.lines_inner hkey, Selection.lines_inner hkey,
              h key (List.mem_append_left _ hmem)]
      · refine List.flatMap_congr fun d hd => ?_
        rw [ih d hd (fun key hkey => h key ?_)]
        exact List.mem_append_right _ (List.mem_flatMap.2 ⟨d, hd, hkey⟩)

end QueryPlan
