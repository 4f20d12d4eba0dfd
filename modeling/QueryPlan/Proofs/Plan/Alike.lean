import QueryPlan.Proofs.Plan.Enumeration

/-!
# Plans that look alike

Two selection sets are alike if their selections have the same heads, in the same order, and if
what is below their keys and in their deferred fragments is alike, though the keys may differ.
Whoever walks through them meets as many selections and prints the same lines.
-/

set_option autoImplicit false

namespace QueryPlan

/-- Selections and deferred fragments correspond in order; `keys` and `sets` say how what is below
them does. -/
structure SelectionSet.Alike (keys : SelectionSetId → SelectionSetId → Prop)
    (sets : SelectionSet → SelectionSet → Prop) (set set' : SelectionSet) : Prop where
  selections : List.Forall₂
    (fun s s' => s.head = s'.head ∧ Option.Rel keys s.selectionSet s'.selectionSet)
    set.selections set'.selections
  deferred : List.Forall₂ (fun d d' => d.head = d'.head ∧ sets d.selectionSet d'.selectionSet)
    set.deferred set'.deferred

namespace Plan

variable {p p' : Plan}

/-- Under both keys stand sets for the same types that correspond in order. -/
def AlikeAt (p p' : Plan) (sets : SelectionSet → SelectionSet → Prop)
    (key key' : SelectionSetId) : Prop :=
  ∃ v v', p.variants.get? key = some v ∧ p'.variants.get? key' = some v' ∧
    List.Forall₂ (fun e e' => e.1 = e'.1 ∧ sets e.2 e'.2) v.sets.entries v'.sets.entries

/-- The sets are alike, where nothing lies deeper than this. -/
def AlikeWithin (p p' : Plan) : Nat → SelectionSet → SelectionSet → Prop
  | 0 => fun _ _ => False
  | n + 1 => SelectionSet.Alike (p.AlikeAt p' (p.AlikeWithin p' n)) (p.AlikeWithin p' n)

/-! ## What is printed -/

/-- Under keys that are alike the same is printed. -/
theorem AlikeAt.variantLines_eq {sets : SelectionSet → SelectionSet → Prop}
    {key key' : SelectionSetId} (h : p.AlikeAt p' sets key key') {fuel : Nat}
    (hsets : ∀ set set' depth, sets set set' →
      set.lines (p.variantLines fuel) depth = set'.lines (p'.variantLines fuel) depth)
    (depth : Nat) :
    p.variantLines (fuel + 1) depth key = p'.variantLines (fuel + 1) depth key' := by
  obtain ⟨v, v', hv, hv', hforall⟩ := h
  rw [variantLines, variantLines, hv, hv']
  refine flatMap_eq_of_forall₂ hforall ?_
  rintro ⟨type, set⟩ ⟨type', set'⟩ ⟨htype, hset⟩
  obtain rfl : type = type' := htype
  dsimp only
  rw [hsets set set' (depth + 1) hset]

/-- Sets that are alike print the same lines. -/
theorem AlikeWithin.lines_eq {n : Nat} {set set' : SelectionSet} (h : p.AlikeWithin p' n set set')
    {fuel : Nat} (hfuel : n ≤ fuel) (depth : Nat) :
    set.lines (p.variantLines fuel) depth = set'.lines (p'.variantLines fuel) depth := by
  induction n generalizing set set' fuel depth with
  | zero => exact h.elim
  | succ n ih =>
      obtain ⟨f, rfl⟩ := Nat.exists_eq_add_of_le' (Nat.le_of_add_left_le hfuel)
      obtain ⟨t, selections, deferred⟩ := set
      obtain ⟨t', selections', deferred'⟩ := set'
      rw [SelectionSet.lines_mk, SelectionSet.lines_mk]
      congr 1
      · refine flatMap_eq_of_forall₂ h.selections ?_
        rintro s s' ⟨hhead, hkeys⟩
        unfold Selection.lines
        rw [hhead]
        generalize s.selectionSet = key, s'.selectionSet = key' at hkeys
        cases hkeys with
        | none => rfl
        | some hkeys =>
            dsimp only
            rw [hkeys.variantLines_eq fun _ _ depth hset => ih hset (by omega) depth]
      · refine flatMap_eq_of_forall₂ h.deferred ?_
        rintro d d' ⟨hhead, hset⟩
        rw [hhead, ih hset (by omega) (depth + 1)]

/-! ## What is met -/

theorem AlikeAt.map_head_met_eq {sets : SelectionSet → SelectionSet → Prop}
    {key key' : SelectionSetId} (h : p.AlikeAt p' sets key key') {fuel : Nat}
    (hsets : ∀ set set', sets set set' →
      (set.met (p.met fuel)).map Selection.head = (set'.met (p'.met fuel)).map Selection.head) :
    (p.met (fuel + 1) key).map Selection.head = (p'.met (fuel + 1) key').map Selection.head := by
  obtain ⟨v, v', hv, hv', hforall⟩ := h
  rw [met_succ hv, met_succ hv', List.map_flatMap, List.map_flatMap, OrderedMap.values,
    OrderedMap.values, List.flatMap_map, List.flatMap_map]
  exact flatMap_eq_of_forall₂ hforall fun e e' he => hsets e.2 e'.2 he.2

/-- In sets that are alike selections with the same heads are met. -/
theorem AlikeWithin.map_head_met_eq {n : Nat} {set set' : SelectionSet}
    (h : p.AlikeWithin p' n set set') {fuel : Nat} (hfuel : n ≤ fuel) :
    (set.met (p.met fuel)).map Selection.head = (set'.met (p'.met fuel)).map Selection.head := by
  induction n generalizing set set' fuel with
  | zero => exact h.elim
  | succ n ih =>
      obtain ⟨f, rfl⟩ := Nat.exists_eq_add_of_le' (Nat.le_of_add_left_le hfuel)
      obtain ⟨t, selections, deferred⟩ := set
      obtain ⟨t', selections', deferred'⟩ := set'
      rw [SelectionSet.met_mk, SelectionSet.met_mk, List.map_append, List.map_append,
        List.map_flatMap, List.map_flatMap, List.map_flatMap, List.map_flatMap]
      congr 1
      · refine flatMap_eq_of_forall₂ h.selections ?_
        rintro s s' ⟨hhead, hkeys⟩
        rw [List.map_cons, List.map_cons, hhead]
        generalize s.selectionSet = key, s'.selectionSet = key' at hkeys
        cases hkeys with
        | none => rfl
        | some hkeys =>
            rw [Option.elim_some, Option.elim_some,
              hkeys.map_head_met_eq fun _ _ hset => ih hset (by omega)]
      · exact flatMap_eq_of_forall₂ h.deferred fun d d' hd => ih hd.2 (by omega)

end Plan

end QueryPlan
