import Mathlib.Data.List.Forall2
import QueryPlan.OrderedMap

/-!
# Ordered maps by their keys and lookups

An ordered map is its keys, in order, with a value for each. So two maps are equal when their
keys are and every lookup gives the same.
-/

set_option autoImplicit false

namespace QueryPlan

namespace OrderedMap

universe u v w x

variable {κ : Type u} {α : Type v} {β : Type w} {γ : Type x}

/-! ## Keys and values -/

theorem keys_nodup (m : OrderedMap κ α) : m.keys.Nodup := m.nodup_keys

@[simp] theorem keys_mapValues (f : κ → α → β) (m : OrderedMap κ α) :
    (m.mapValues f).keys = m.keys := by
  simp [keys, mapValues, Function.comp_def]

theorem values_mapValues (f : α → β) (m : OrderedMap κ α) :
    (m.mapValues fun _ a => f a).values = m.values.map f := by
  simp [values, mapValues, Function.comp_def]

variable [DecidableEq κ]

theorem get?_eq_none_iff {m : OrderedMap κ α} {k : κ} : m.get? k = none ↔ k ∉ m.keys := by
  rw [mem_keys_iff, Option.eq_none_iff_forall_ne_some]
  push Not
  rfl

theorem contains_eq_false_iff {m : OrderedMap κ α} {k : κ} :
    m.contains k = false ↔ k ∉ m.keys := by
  rw [← Bool.not_eq_true, contains_iff]

/-- A key that stands among the entries has its value there. -/
theorem get?_of_mem_entries {m : OrderedMap κ α} {e : κ × α} (h : e ∈ m.entries) :
    m.get? e.1 = some e.2 :=
  get?_eq_some_iff.2 h

/-- The entries are the keys, each with what is found there. -/
theorem entries_map_some (m : OrderedMap κ α) :
    m.entries.map (fun e => (e.1, some e.2)) = m.keys.map fun k => (k, m.get? k) := by
  rw [keys, List.map_map]
  apply List.map_congr_left
  intro e he
  rw [Function.comp_apply, get?_of_mem_entries he]

theorem ext_get? {m n : OrderedMap κ α} (hkeys : m.keys = n.keys)
    (hget : ∀ k, m.get? k = n.get? k) : m = n := by
  ext1
  have hsome : m.entries.map (fun e => (e.1, some e.2))
      = n.entries.map (fun e => (e.1, some e.2)) := by
    rw [entries_map_some, entries_map_some, hkeys]
    simp only [hget]
  refine List.map_injective_iff.2 (fun e e' h => ?_) hsome
  simpa [Prod.ext_iff] using h

/-- What is found under a key that is there is among the values. -/
theorem mem_values_of_get? {m : OrderedMap κ α} {k : κ} {a : α} (h : m.get? k = some a) :
    a ∈ m.values :=
  mem_values_iff.2 ⟨k, h⟩

/-! ## Insertions -/

theorem insertAll_append (m : OrderedMap κ α) (es es' : List (κ × α)) :
    m.insertAll (es ++ es') = (m.insertAll es).insertAll es' :=
  List.foldl_append

theorem mapValues_insertAll (f : κ → α → β) (m : OrderedMap κ α) (es : List (κ × α)) :
    (m.insertAll es).mapValues f
      = (m.mapValues f).insertAll (es.map fun e => (e.1, f e.1 e.2)) := by
  induction es generalizing m with
  | nil => rfl
  | cons e es ih =>
      show ((m.insert e.1 e.2).insertAll es).mapValues f = _
      rw [ih, mapValues_insert]
      rfl

theorem mapValues_ofList (f : κ → α → β) (es : List (κ × α)) :
    (ofList es).mapValues f = ofList (es.map fun e => (e.1, f e.1 e.2)) :=
  mapValues_insertAll f empty es

end OrderedMap

end QueryPlan
