import Mathlib.Tactic

/-!
# Texts that are told apart

A notation is unambiguous in a text if an item can be told from what is behind it (`Told`). Then
several items can be told too, be they written one after another or with separators between them.
What may come behind an item is a parameter: a name, say, ends only where no name goes on.
-/

set_option autoImplicit false

namespace QueryPlan.Text

variable {α : Type}

/-- An item of `S` can be told from its notation together with what is behind it, and so can what
is behind it, if that satisfies `after`. -/
def Told (after : List Char → Prop) (f : α → List Char) (S : α → Prop) : Prop :=
  ∀ x y, S x → S y → ∀ r r', after r → after r' → f x ++ r = f y ++ r' → x = y ∧ r = r'

/-- The text begins with a character for which `p` does not hold. -/
def BeginsOutside (p : Char → Bool) (r : List Char) : Prop := ∃ c rest, r = c :: rest ∧ p c = false

/-- Characters of one kind are told from a text that does not go on with that kind. -/
theorem told_of_all (p : Char → Bool) :
    Told (BeginsOutside p) id fun w => ∀ x ∈ w, p x = true := by
  rintro x y hx hy _ _ ⟨c, r, rfl, hc⟩ ⟨d, r', rfl, hd⟩ h
  rw [← Bool.not_eq_true] at hc hd
  have htake := congrArg (List.takeWhile p) h
  rw [id, id, List.takeWhile_append_of_pos hx, List.takeWhile_append_of_pos hy,
    List.takeWhile_cons_of_neg hc, List.takeWhile_cons_of_neg hd, List.append_nil,
    List.append_nil] at htake
  subst htake
  exact ⟨rfl, List.append_cancel_left h⟩

variable {after : List Char → Prop} {f : α → List Char} {S : α → Prop} {xs ys : List α}

/-- Notations that are told from anything make up a text in one way only. -/
theorem Told.flatMap_inj (h : Told (fun _ => True) f S) (hne : ∀ x, f x ≠ []) (hxs : ∀ x ∈ xs, S x)
    (hys : ∀ y ∈ ys, S y) (heq : xs.flatMap f = ys.flatMap f) : xs = ys := by
  induction xs generalizing ys with
  | nil =>
      cases ys with
      | nil => rfl
      | cons y ys => exact absurd (List.append_eq_nil_iff.1 heq.symm).1 (hne y)
  | cons x xs ih =>
      cases ys with
      | nil => exact absurd (List.append_eq_nil_iff.1 heq).1 (hne x)
      | cons y ys =>
          rw [List.forall_mem_cons] at hxs hys
          rw [List.flatMap_cons, List.flatMap_cons] at heq
          obtain ⟨rfl, hrest⟩ := h x y hxs.1 hys.1 _ _ trivial trivial heq
          rw [ih hxs.2 hys.2 hrest]

/-- So do notations with separators between them, up to a character that begins no separator. -/
theorem Told.intercalate_inj (h : Told after f S) {s e : Char} {sep : List Char}
    (hs : ∀ r, after (s :: r)) (he : ∀ r, after (e :: r)) (hne : s ≠ e)
    (hxs : ∀ x ∈ xs, S x) (hys : ∀ y ∈ ys, S y) (hxs' : xs ≠ []) (hys' : ys ≠ [])
    {r r' : List Char}
    (heq : (s :: sep).intercalate (xs.map f) ++ e :: r =
      (s :: sep).intercalate (ys.map f) ++ e :: r') : xs = ys ∧ r = r' := by
  have hmore (x x' : α) (xs : List α) (r : List Char) :
      (s :: sep).intercalate ((x :: x' :: xs).map f) ++ e :: r =
        f x ++ s :: (sep ++ ((s :: sep).intercalate ((x' :: xs).map f) ++ e :: r)) := by
    simp [List.intercalate_cons_cons]
  have hlast (x : α) (r : List Char) :
      (s :: sep).intercalate ([x].map f) ++ e :: r = f x ++ e :: r := by
    simp
  induction xs generalizing ys with
  | nil => exact absurd rfl hxs'
  | cons x xs ih =>
      cases ys with
      | nil => exact absurd rfl hys'
      | cons y ys =>
          rw [List.forall_mem_cons] at hxs hys
          -- the first items agree, and so does what comes behind them
          cases xs with
          | nil =>
              cases ys with
              | nil =>
                  rw [hlast, hlast] at heq
                  obtain ⟨rfl, hrest⟩ := h x y hxs.1 hys.1 _ _ (he _) (he _) heq
                  exact ⟨rfl, (List.cons_eq_cons.1 hrest).2⟩
              | cons y' ys =>
                  rw [hlast, hmore] at heq
                  obtain ⟨-, hrest⟩ := h x y hxs.1 hys.1 _ _ (he _) (hs _) heq
                  exact absurd (List.cons_eq_cons.1 hrest).1.symm hne
          | cons x' xs =>
              cases ys with
              | nil =>
                  rw [hlast, hmore] at heq
                  obtain ⟨-, hrest⟩ := h x y hxs.1 hys.1 _ _ (hs _) (he _) heq
                  exact absurd (List.cons_eq_cons.1 hrest).1 hne
              | cons y' ys =>
                  rw [hmore, hmore] at heq
                  obtain ⟨rfl, hrest⟩ := h x y hxs.1 hys.1 _ _ (hs _) (hs _) heq
                  obtain ⟨htail, hend⟩ := ih hxs.2 hys.2 (List.cons_ne_nil _ _)
                    (List.cons_ne_nil _ _) (List.append_cancel_left (List.cons_eq_cons.1 hrest).2)
                  exact ⟨by rw [htail], hend⟩

end QueryPlan.Text
