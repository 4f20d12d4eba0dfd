import Mathlib.Tactic
import QueryPlan.Text.Lines

/-!
# Line feeds

`breaks` counts the line feeds of a text, and a text without any is on one line. Joining texts adds
up their line feeds, and the pieces that a text is cut into hold none.
-/

set_option autoImplicit false

namespace QueryPlan.Text

/-- How many line feeds a text holds. -/
def breaks (s : String) : Nat := s.toList.count '\n'

/-- No line feed is in the text. -/
def OneLine (s : String) : Prop := breaks s = 0

instance (s : String) : Decidable (OneLine s) := inferInstanceAs (Decidable (breaks s = 0))

theorem oneLine_iff {s : String} : OneLine s ↔ '\n' ∉ s.toList := List.count_eq_zero

theorem breaks_ofList (cs : List Char) : breaks (String.ofList cs) = cs.count '\n' := by
  rw [breaks, String.toList_ofList]

theorem oneLine_ofList {cs : List Char} : OneLine (String.ofList cs) ↔ '\n' ∉ cs := by
  rw [oneLine_iff, String.toList_ofList]

@[simp] theorem breaks_append (s t : String) : breaks (s ++ t) = breaks s + breaks t := by
  rw [breaks, String.toList_append, List.count_append, breaks, breaks]

theorem breaks_join (ss : List String) : breaks (String.join ss) = (ss.map breaks).sum := by
  rw [breaks, String.toList_join, List.count_flatMap]
  rfl

/-- Between the texts of a list a separator on one line adds nothing. -/
theorem breaks_intercalate {separator : String} (h : OneLine separator) (ss : List String) :
    breaks (separator.intercalate ss) = (ss.map breaks).sum := by
  have hcount : ∀ ls : List (List Char),
      (separator.toList.intercalate ls).count '\n' = (ls.map (List.count '\n')).sum := by
    intro ls
    induction ls with
    | nil => simp
    | cons l ls ih =>
        cases ls with
        | nil => simp
        | cons l' ls =>
            have hnone : separator.toList.count '\n' = 0 := h
            rw [List.intercalate_cons_cons, List.count_append, List.count_append, ih, hnone]
            simp only [List.map_cons, List.sum_cons, Nat.add_zero]
  rw [breaks, String.toList_intercalate, hcount, List.map_map]
  rfl

theorem OneLine.append {s t : String} (hs : OneLine s) (ht : OneLine t) : OneLine (s ++ t) := by
  show breaks (s ++ t) = 0
  rw [breaks_append, hs, ht]

theorem sum_breaks_eq_zero {ss : List String} (h : ∀ s ∈ ss, OneLine s) :
    (ss.map breaks).sum = 0 :=
  List.sum_eq_zero fun n hn => by
    obtain ⟨s, hs, rfl⟩ := List.mem_map.1 hn
    exact h s hs

theorem oneLine_join {ss : List String} (h : ∀ s ∈ ss, OneLine s) : OneLine (String.join ss) :=
  (breaks_join ss).trans (sum_breaks_eq_zero h)

theorem oneLine_intercalate {separator : String} (hseparator : OneLine separator)
    {ss : List String} (h : ∀ s ∈ ss, OneLine s) : OneLine (separator.intercalate ss) :=
  (breaks_intercalate hseparator ss).trans (sum_breaks_eq_zero h)

/-! ## The pieces of a text -/

theorem not_mem_of_mem_splitLines {cs l : List Char} (h : l ∈ splitLines cs) : '\n' ∉ l := by
  induction cs generalizing l with
  | nil =>
      rw [splitLines, List.mem_singleton] at h
      simp [h]
  | cons c cs ih =>
      by_cases hc : c = '\n'
      · rw [splitLines, if_pos hc] at h
        rcases List.mem_cons.1 h with rfl | h
        · simp
        · exact ih h
      · rw [splitLines, if_neg hc] at h
        cases hsplit : splitLines cs with
        | nil => exact absurd hsplit (splitLines_ne_nil cs)
        | cons first rest =>
            rw [hsplit] at h ih
            rcases List.mem_cons.1 h with rfl | h
            · intro hmem
              rcases List.mem_cons.1 hmem with heq | hmem
              · exact hc heq.symm
              · exact ih List.mem_cons_self hmem
            · exact ih (List.mem_cons_of_mem _ h)

theorem mem_of_mem_dropReturn {l : List Char} {c : Char} (h : c ∈ dropReturn l) : c ∈ l := by
  by_cases hlast : l.getLast? = some '\r'
  · rw [dropReturn, if_pos hlast] at h
    exact List.mem_of_mem_dropLast h
  · rwa [dropReturn, if_neg hlast] at h

/-- A line of a text holds no line feed. -/
theorem not_mem_of_mem_lines {cs l : List Char} (h : l ∈ lines cs) : '\n' ∉ l := by
  have hpiece : ∀ x ∈ (splitLines cs).reverse, '\n' ∉ x := fun x hx =>
    not_mem_of_mem_splitLines (List.mem_reverse.1 hx)
  have htrim : ∀ rest : List (List Char), (∀ x ∈ rest, '\n' ∉ x) →
      ∀ x ∈ rest.map dropReturn, '\n' ∉ x := by
    intro rest hrest x hx hmem
    obtain ⟨y, hy, rfl⟩ := List.mem_map.1 hx
    exact hrest y hy (mem_of_mem_dropReturn hmem)
  unfold lines at h
  split at h
  · cases h
  · next rest heq =>
      refine htrim rest (fun x hx => hpiece x ?_) l (List.mem_reverse.1 h)
      rw [heq]
      exact List.mem_cons_of_mem _ hx
  · next last rest hlast heq =>
      rcases List.mem_cons.1 (List.mem_reverse.1 h) with rfl | h
      · refine hpiece l ?_
        rw [heq]
        exact List.mem_cons_self
      · refine htrim rest (fun x hx => hpiece x ?_) l h
        rw [heq]
        exact List.mem_cons_of_mem _ hx

end QueryPlan.Text
