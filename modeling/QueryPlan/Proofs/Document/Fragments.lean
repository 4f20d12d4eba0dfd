import QueryPlan.Document.FragmentIndex
import QueryPlan.Proofs.Document.Closed

/-!
# Indexed fragments

Collecting keeps the first fragment of each name, whatever comes later (`get?_collect_eq_find?`).
An index that is not refused holds fragments of the document under their names.
-/

set_option autoImplicit false

namespace QueryPlan

namespace FragmentIndex

/-- One more fragment is kept if its name is new, and a duplicate otherwise. -/
theorem collect_concat (before : List FragmentNode) (f : FragmentNode) :
    collect (before ++ [f]) = ((collect before).1.get? f.name).elim
      ((collect before).1.insert f.name f, (collect before).2)
      fun e => ((collect before).1,
        (collect before).2 ++ [.duplicate f.name e.location f.location]) := by
  rw [collect, List.foldl_append, List.foldl_cons, List.foldl_nil, ← collect]
  cases collect before with
  | mk m errors =>
      dsimp only
      cases m.get? f.name with
      | some e => rfl
      | none => rfl

/-- A name is looked up as the first fragment that has it. -/
theorem get?_collect_eq_find? (fragments : List FragmentNode) (name : String) :
    (collect fragments).1.get? name = fragments.find? fun f => f.name = name := by
  induction fragments using List.reverseRecOn with
  | nil => rfl
  | append_singleton before f ih =>
      rw [collect_concat, List.find?_append, ← ih]
      by_cases hname : f.name = name
      · subst hname
        cases hget : (collect before).1.get? f.name with
        | some e => simpa using hget
        | none => simp [OrderedMap.get?_insert_self]
      · have hother : [f].find? (fun f => f.name = name) = none := by simp [hname]
        rw [hother, Option.or_none]
        cases (collect before).1.get? f.name with
        | some e => rfl
        | none => exact OrderedMap.get?_insert_of_ne _ _ (Ne.symm hname)

/-- The fragments stand under their names, and are among some others. -/
def Indexes (m : OrderedMap String FragmentNode) (fragments : List FragmentNode) : Prop :=
  ∀ ⦃name f⦄, m.get? name = some f → f.name = name ∧ f ∈ fragments

theorem collect_indexes (fragments : List FragmentNode) :
    Indexes (collect fragments).1 fragments := by
  intro name f hf
  rw [get?_collect_eq_find?] at hf
  exact ⟨by simpa using List.find?_some hf, List.mem_of_find?_eq_some hf⟩

variable {d : Document} {index : FragmentIndex}

/-- Nothing was found that speaks against the index of a document. -/
theorem build_eq_ok_iff :
    build d = .ok index ↔
      index = ⟨(collect d.fragments).1⟩ ∧ (collect d.fragments).2 = [] ∧
        (search (collect d.fragments).1 d.syntaxArena).cycles = [] := by
  unfold build
  rcases collect d.fragments with ⟨m, duplicates⟩
  dsimp only
  split
  · rename_i hnone
    rw [List.append_eq_nil_iff, List.map_eq_nil_iff] at hnone
    constructor
    · intro h
      cases h
      exact ⟨rfl, hnone⟩
    · rintro ⟨rfl, -⟩
      rfl
  · rename_i hsome
    constructor
    · intro h
      cases h
    · rintro ⟨-, hduplicates, hcycles⟩
      rw [hduplicates, hcycles] at hsome
      exact absurd rfl hsome

theorem indexes_of_build (h : build d = .ok index) : Indexes index.fragments d.fragments := by
  obtain ⟨rfl, -, -⟩ := build_eq_ok_iff.1 h
  exact collect_indexes d.fragments

/-- The selection set of an indexed fragment is one of the document. -/
theorem exists_set_of_resolve? (hd : d.Closed) (h : build d = .ok index) {name : String}
    {f : FragmentNode} (hf : index.resolve? name = some f) :
    ∃ set, d.syntaxArena.selectionSet? f.selectionSet = some set :=
  hd.fragment f (indexes_of_build h hf).2

end FragmentIndex

end QueryPlan
