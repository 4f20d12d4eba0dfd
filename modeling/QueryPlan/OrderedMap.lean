/-!
# Maps that keep the order of insertion

An `OrderedMap κ α` is a list of entries whose keys are pairwise distinct. The order of the
entries is part of the value: it is the order in which keys were first inserted, and every
operation says what it does to it. Distinctness of the keys is carried by the type, so that
whatever edits a map has been through, each key still has one value.
-/

set_option autoImplicit false

namespace QueryPlan

universe u v w

/-- A finite map that remembers the order in which its keys were first inserted. -/
structure OrderedMap (κ : Type u) (α : Type v) where
  /-- The entries, in order. -/
  entries : List (κ × α)
  /-- No key has two entries. -/
  nodup_keys : (entries.map Prod.fst).Nodup

namespace OrderedMap

variable {κ : Type u} {α : Type v} {β : Type w}

@[ext] theorem ext {m n : OrderedMap κ α} (h : m.entries = n.entries) : m = n := by
  cases m; cases n; cases h; rfl

instance [DecidableEq κ] [DecidableEq α] : DecidableEq (OrderedMap κ α) := fun m n =>
  if h : m.entries = n.entries then isTrue (ext h)
  else isFalse fun e => h (congrArg entries e)

/-- The map without entries. -/
def empty : OrderedMap κ α := ⟨[], List.nodup_nil⟩

instance : Inhabited (OrderedMap κ α) := ⟨empty⟩

/-- The keys, in order. -/
def keys (m : OrderedMap κ α) : List κ := m.entries.map Prod.fst

/-- The values, in the order of their keys. -/
def values (m : OrderedMap κ α) : List α := m.entries.map Prod.snd

/-- How many entries there are. -/
def size (m : OrderedMap κ α) : Nat := m.entries.length

def isEmpty (m : OrderedMap κ α) : Bool := m.entries.isEmpty

@[simp] theorem keys_empty : (empty : OrderedMap κ α).keys = [] := rfl

@[simp] theorem values_empty : (empty : OrderedMap κ α).values = [] := rfl

/-- The same keys with other values. -/
def mapValues (f : κ → α → β) (m : OrderedMap κ α) : OrderedMap κ β where
  entries := m.entries.map fun e => (e.1, f e.1 e.2)
  nodup_keys := by simpa [Function.comp_def] using m.nodup_keys

/-! ## Reading and inserting -/

section Lookup

variable [DecidableEq κ]

/-- The value at a key. -/
def get? (m : OrderedMap κ α) (k : κ) : Option α :=
  (m.entries.find? fun e => e.1 = k).map Prod.snd

def contains (m : OrderedMap κ α) (k : κ) : Bool := m.entries.any fun e => e.1 = k

theorem contains_iff {m : OrderedMap κ α} {k : κ} : m.contains k = true ↔ k ∈ m.keys := by
  simp only [contains, keys, List.any_eq_true, decide_eq_true_eq, List.mem_map]

/-- Every entry can be looked up by its key, which no other entry has. -/
theorem get?_eq_some_iff {m : OrderedMap κ α} {k : κ} {a : α} :
    m.get? k = some a ↔ (k, a) ∈ m.entries := by
  have h : ∀ es : List (κ × α), (es.map Prod.fst).Nodup →
      ((es.find? fun e => e.1 = k).map Prod.snd = some a ↔ (k, a) ∈ es) := by
    intro es
    induction es with
    | nil => simp
    | cons e es ih =>
        intro hnd
        rw [List.map_cons, List.nodup_cons] at hnd
        by_cases he : e.1 = k
        · have hk : (k, a) ∉ es := fun hm => hnd.1 (he ▸ List.mem_map_of_mem hm)
          rw [List.find?_cons_of_pos (by simpa using he), Option.map_some, Option.some_inj,
            List.mem_cons, or_iff_left hk, ← he, Prod.ext_iff]
          exact ⟨fun h => ⟨rfl, h.symm⟩, fun h => h.2.symm⟩
        · rw [List.find?_cons_of_neg (by simpa using he), ih hnd.2, List.mem_cons,
            or_iff_right fun h => he (congrArg Prod.fst h).symm]
  exact h m.entries m.nodup_keys

theorem mem_keys_iff {m : OrderedMap κ α} {k : κ} :
    k ∈ m.keys ↔ ∃ a, m.get? k = some a := by
  simp only [keys, get?_eq_some_iff, List.mem_map]
  exact ⟨fun ⟨e, he, hk⟩ => ⟨e.2, hk ▸ he⟩, fun ⟨a, ha⟩ => ⟨(k, a), ha, rfl⟩⟩

theorem mem_values_iff {m : OrderedMap κ α} {a : α} :
    a ∈ m.values ↔ ∃ k, m.get? k = some a := by
  simp only [values, get?_eq_some_iff, List.mem_map]
  exact ⟨fun ⟨e, he, ha⟩ => ⟨e.1, ha ▸ he⟩, fun ⟨k, hk⟩ => ⟨(k, a), hk, rfl⟩⟩

@[simp] theorem get?_empty (k : κ) : (empty : OrderedMap κ α).get? k = none := rfl

theorem get?_mapValues (f : κ → α → β) (m : OrderedMap κ α) (k : κ) :
    (m.mapValues f).get? k = (m.get? k).map (f k) := by
  ext b
  rw [get?_eq_some_iff, Option.map_eq_some_iff]
  simp only [mapValues, get?_eq_some_iff, List.mem_map]
  constructor
  · rintro ⟨e, he, heq⟩
    cases heq
    exact ⟨e.2, he, rfl⟩
  · rintro ⟨a, ha, rfl⟩
    exact ⟨(k, a), ha, rfl⟩

/-- Changes the value at a key in place; without that key, nothing. -/
def modify (m : OrderedMap κ α) (k : κ) (f : α → α) : OrderedMap κ α where
  entries := m.entries.map fun e => if e.1 = k then (e.1, f e.2) else e
  nodup_keys := by
    have h : (fun e : κ × α => (if e.1 = k then (e.1, f e.2) else e).1) = Prod.fst := by
      funext e; split <;> rfl
    simpa [Function.comp_def, h] using m.nodup_keys

@[simp] theorem keys_modify (m : OrderedMap κ α) (k : κ) (f : α → α) :
    (m.modify k f).keys = m.keys := by
  have h : (fun e : κ × α => (if e.1 = k then (e.1, f e.2) else e).1) = Prod.fst := by
    funext e; split <;> rfl
  simp [keys, modify, Function.comp_def, h]

theorem get?_modify_self (m : OrderedMap κ α) (k : κ) (f : α → α) :
    (m.modify k f).get? k = (m.get? k).map f := by
  ext a
  rw [get?_eq_some_iff, Option.map_eq_some_iff]
  simp only [modify, get?_eq_some_iff, List.mem_map]
  constructor
  · rintro ⟨e, he, heq⟩
    by_cases hk : e.1 = k
    · rw [if_pos hk] at heq
      exact ⟨e.2, hk ▸ he, congrArg Prod.snd heq⟩
    · rw [if_neg hk] at heq
      exact absurd (congrArg Prod.fst heq) hk
  · rintro ⟨b, hb, rfl⟩
    exact ⟨(k, b), hb, by simp⟩

theorem get?_modify_of_ne (m : OrderedMap κ α) {k l : κ} (f : α → α) (h : l ≠ k) :
    (m.modify k f).get? l = m.get? l := by
  ext a
  rw [get?_eq_some_iff, get?_eq_some_iff]
  simp only [modify, List.mem_map]
  constructor
  · rintro ⟨e, he, heq⟩
    by_cases hk : e.1 = k
    · rw [if_pos hk] at heq
      exact absurd ((congrArg Prod.fst heq).symm.trans hk) h
    · rw [if_neg hk] at heq
      exact heq ▸ he
  · intro he
    exact ⟨(l, a), he, if_neg h⟩

/-- Only the entry at the key changes, and it keeps its place. -/
theorem entries_modify {m : OrderedMap κ α} {k : κ} {a : α} (f : α → α)
    (h : m.get? k = some a) :
    ∃ before after, m.entries = before ++ (k, a) :: after ∧
      (m.modify k f).entries = before ++ (k, f a) :: after := by
  obtain ⟨before, after, hsplit⟩ := List.append_of_mem (get?_eq_some_iff.1 h)
  have hnd := m.nodup_keys
  rw [hsplit, List.map_append, List.nodup_append, List.map_cons, List.nodup_cons] at hnd
  have hsame : ∀ es : List (κ × α), k ∉ es.map Prod.fst →
      es.map (fun e => if e.1 = k then (e.1, f e.2) else e) = es := by
    intro es hes
    refine (List.map_congr_left fun e he => if_neg fun hk => hes ?_).trans (List.map_id es)
    exact hk ▸ List.mem_map_of_mem he
  refine ⟨before, after, hsplit, ?_⟩
  have hbefore : k ∉ before.map Prod.fst := fun hm =>
    hnd.2.2 k hm k List.mem_cons_self rfl
  show m.entries.map (fun e => if e.1 = k then (e.1, f e.2) else e) = _
  rw [hsplit, List.map_append, List.map_cons, hsame before hbefore,
    hsame after hnd.2.1.1, if_pos rfl]

/-- Adds an entry after all others when its key is new; otherwise the value replaces the one
at that key, which keeps its place. -/
def insert (m : OrderedMap κ α) (k : κ) (a : α) : OrderedMap κ α where
  entries := if m.contains k then (m.modify k fun _ => a).entries else m.entries ++ [(k, a)]
  nodup_keys := by
    by_cases h : m.contains k = true
    · rw [if_pos h]
      exact (m.modify k fun _ => a).nodup_keys
    · have hk : k ∉ m.keys := fun hm => h (contains_iff.2 hm)
      rw [if_neg h, List.map_append, List.nodup_append]
      refine ⟨m.nodup_keys, by simp, ?_⟩
      intro x hx y hy
      obtain rfl : y = k := by simpa using hy
      exact fun hxy => hk (hxy ▸ hx)

theorem entries_insert (m : OrderedMap κ α) (k : κ) (a : α) :
    (m.insert k a).entries =
      if m.contains k then (m.modify k fun _ => a).entries else m.entries ++ [(k, a)] := rfl

/-- A new key goes last; a key that is there keeps its place. -/
theorem keys_insert (m : OrderedMap κ α) (k : κ) (a : α) :
    (m.insert k a).keys = if k ∈ m.keys then m.keys else m.keys ++ [k] := by
  by_cases h : m.contains k = true
  · rw [if_pos (contains_iff.1 h), keys, entries_insert, if_pos h]
    exact keys_modify m k fun _ => a
  · rw [if_neg fun hm => h (contains_iff.2 hm), keys, entries_insert, if_neg h, List.map_append]
    rfl

theorem entries_insert_of_notMem {m : OrderedMap κ α} {k : κ} (a : α) (h : k ∉ m.keys) :
    (m.insert k a).entries = m.entries ++ [(k, a)] := by
  rw [entries_insert, if_neg fun hm => h (contains_iff.1 hm)]

theorem get?_insert_self (m : OrderedMap κ α) (k : κ) (a : α) :
    (m.insert k a).get? k = some a := by
  rw [get?_eq_some_iff]
  by_cases h : k ∈ m.keys
  · obtain ⟨b, hb⟩ := mem_keys_iff.1 h
    have hm := get?_modify_self m k fun _ => a
    rw [hb, Option.map_some, get?_eq_some_iff] at hm
    rwa [entries_insert, if_pos (contains_iff.2 h)]
  · rw [entries_insert_of_notMem a h]
    simp

theorem get?_insert_of_ne (m : OrderedMap κ α) {k l : κ} (a : α) (h : l ≠ k) :
    (m.insert k a).get? l = m.get? l := by
  ext b
  rw [get?_eq_some_iff, get?_eq_some_iff]
  by_cases hk : k ∈ m.keys
  · have hm := get?_modify_of_ne m (fun _ => a) h
    rw [entries_insert, if_pos (contains_iff.2 hk), ← get?_eq_some_iff, hm, get?_eq_some_iff]
  · rw [entries_insert_of_notMem a hk, List.mem_append, List.mem_singleton, or_iff_left]
    exact fun he => h (congrArg Prod.fst he)

/-- It does not matter whether a value is put in before or after all values are changed. -/
theorem mapValues_insert (f : κ → α → β) (m : OrderedMap κ α) (k : κ) (a : α) :
    (m.insert k a).mapValues f = (m.mapValues f).insert k (f k a) := by
  have hkeys : (m.mapValues f).keys = m.keys := by
    simp [keys, mapValues, Function.comp_def]
  ext1
  show (m.insert k a).entries.map (fun e => (e.1, f e.1 e.2)) = _
  by_cases hk : k ∈ m.keys
  · rw [entries_insert, if_pos (contains_iff.2 hk), entries_insert,
      if_pos (contains_iff.2 (hkeys.symm ▸ hk))]
    simp only [modify, mapValues, List.map_map]
    refine List.map_congr_left fun e _ => ?_
    by_cases he : e.1 = k
    · simp [he]
    · simp [he]
  · rw [entries_insert_of_notMem a hk, entries_insert_of_notMem _ (hkeys.symm ▸ hk),
      List.map_append]
    rfl

theorem mem_keys_insert {m : OrderedMap κ α} {k l : κ} {a : α} :
    l ∈ (m.insert k a).keys ↔ l = k ∨ l ∈ m.keys := by
  rw [keys_insert]
  by_cases hk : k ∈ m.keys
  · rw [if_pos hk]
    exact ⟨Or.inr, fun h => h.elim (fun e => e ▸ hk) id⟩
  · rw [if_neg hk, List.mem_append, List.mem_singleton, or_comm]

/-- Inserts entries one after another: the last of equal keys gives the value, the first
gives the place. -/
def insertAll (m : OrderedMap κ α) (es : List (κ × α)) : OrderedMap κ α :=
  es.foldl (fun m e => m.insert e.1 e.2) m

/-- The map of a list of entries. -/
def ofList (es : List (κ × α)) : OrderedMap κ α := empty.insertAll es

/-! ## Removing -/

/-- Removes a key; the entries after it close up. -/
def erase (m : OrderedMap κ α) (k : κ) : OrderedMap κ α where
  entries := m.entries.filter fun e => e.1 ≠ k
  nodup_keys := m.nodup_keys.sublist (List.filter_sublist.map _)

/-- Replacing the first component `k` of at most one entry by a fresh key keeps keys apart. -/
private theorem nodup_replaceKey {es : List (κ × α)} {k : κ} {l : κ × α}
    (h : (es.map Prod.fst).Nodup) (hl : l.1 ∉ es.map Prod.fst) :
    ((es.map fun e => if e.1 = k then l else e).map Prod.fst).Nodup := by
  induction es with
  | nil => simp
  | cons e es ih =>
    simp only [List.map_cons, List.nodup_cons, List.mem_cons, not_or] at h hl
    simp only [List.map_cons, List.nodup_cons]
    refine ⟨?_, ih h.2 hl.2⟩
    by_cases hk : e.1 = k
    · subst hk
      have hrest : es.map (fun x => if x.1 = e.1 then l else x) = es := by
        refine (List.map_congr_left fun x hx => ?_).trans (List.map_id es)
        have : x.1 ≠ e.1 := fun hx' => h.1 (hx' ▸ List.mem_map_of_mem hx)
        simp [this]
      simpa [hrest] using hl.2
    · simp only [hk, if_false]
      intro hm
      obtain ⟨y, hy, hye⟩ := List.mem_map.1 hm
      obtain ⟨x, hx, rfl⟩ := List.mem_map.1 hy
      by_cases hxk : x.1 = k
      · simp only [hxk, if_true] at hye
        exact hl.1 hye
      · simp only [hxk, if_false] at hye
        exact h.1 (hye ▸ List.mem_map_of_mem hx)

/-- Removes a key by moving the last entry into its place. -/
def swapErase (m : OrderedMap κ α) (k : κ) : OrderedMap κ α :=
  match h : m.entries.getLast? with
  | none => m
  | some l =>
    if l.1 = k then
      ⟨m.entries.dropLast, m.nodup_keys.sublist ((List.dropLast_sublist _).map _)⟩
    else if m.contains k then
      { entries := m.entries.dropLast.map fun e => if e.1 = k then l else e
        nodup_keys := by
          obtain ⟨es, hes⟩ := List.getLast?_eq_some_iff.1 h
          have hnd := m.nodup_keys
          rw [hes, List.map_append, List.nodup_append] at hnd
          have hd : m.entries.dropLast = es := by rw [hes, List.dropLast_concat]
          rw [hd]
          refine nodup_replaceKey hnd.1 fun hm => ?_
          exact hnd.2.2 l.1 hm l.1 (by simp) rfl }
    else m

end Lookup

/-! ## Reordering -/

/-- The entries in the opposite order. -/
def reverse (m : OrderedMap κ α) : OrderedMap κ α where
  entries := m.entries.reverse
  nodup_keys := ((List.reverse_perm m.entries).map Prod.fst).nodup_iff.2 m.nodup_keys

/-- The entries sorted by their keys. -/
def sortKeys (le : κ → κ → Bool) (m : OrderedMap κ α) : OrderedMap κ α where
  entries := m.entries.mergeSort fun a b => le a.1 b.1
  nodup_keys := ((List.mergeSort_perm m.entries _).map Prod.fst).nodup_iff.2 m.nodup_keys

end OrderedMap

end QueryPlan
