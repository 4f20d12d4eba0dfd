import QueryPlan.Proofs.Run

/-!
# Lists with repetitions

The second of two lists is padded if it has a partner for each entry of the first, in order, and
besides only entries that are partners of something earlier. Whoever goes through both lists and
takes no notice of what has come before, does the same with both (`Padded.foldl_eq`).
-/

set_option autoImplicit false

namespace QueryPlan

variable {α β γ δ : Type}

/-- Behind what has been `seen`, the second list has partners for the entries of the first in
order, and besides partners of earlier entries. -/
inductive Padded (R : α → β → Prop) : List α → List α → List β → Prop
  | nil {seen} : Padded R seen [] []
  | cons {seen x y xs ys} :
      R x y → Padded R (x :: seen) xs ys → Padded R seen (x :: xs) (y :: ys)
  | again {seen x y xs ys} :
      x ∈ seen → R x y → Padded R seen xs ys → Padded R seen xs (y :: ys)

namespace Padded

variable {R : α → β → Prop} {seen seen' xs xs' : List α} {ys ys' : List β}

theorem of_forall₂ (h : List.Forall₂ R xs ys) : Padded R seen xs ys := by
  induction h generalizing seen with
  | nil => exact .nil
  | cons hxy _ ih => exact .cons hxy ih

theorem refl {R : α → α → Prop} (hR : ∀ x, R x x) (xs : List α) : Padded R seen xs xs :=
  of_forall₂ (List.forall₂_same.2 fun x _ => hR x)

/-- It does no harm to have seen more. -/
theorem mono (h : Padded R seen xs ys) (hsub : seen ⊆ seen') : Padded R seen' xs ys := by
  induction h generalizing seen' with
  | nil => exact .nil
  | cons hxy _ ih => exact .cons hxy (ih (List.cons_subset_cons _ hsub))
  | again hx hxy _ ih => exact .again (hsub hx) hxy (ih hsub)

/-- Every entry of the padded list is a partner of something. -/
theorem exists_of_mem (h : Padded R seen xs ys) {y : β} (hy : y ∈ ys) :
    ∃ x, (x ∈ seen ∨ x ∈ xs) ∧ R x y := by
  induction h with
  | nil => exact absurd hy List.not_mem_nil
  | cons hxy _ ih =>
      rcases List.mem_cons.1 hy with rfl | hy
      · exact ⟨_, Or.inr List.mem_cons_self, hxy⟩
      · obtain ⟨x, hx, hr⟩ := ih hy
        rw [List.mem_cons, or_assoc, or_left_comm, ← List.mem_cons] at hx
        exact ⟨x, hx, hr⟩
  | again hx hxy _ ih =>
      rcases List.mem_cons.1 hy with rfl | hy
      · exact ⟨_, Or.inl hx, hxy⟩
      · exact ih hy

/-- Every entry has a partner in the padded list. -/
theorem exists_of_mem_left (h : Padded R seen xs ys) {x : α} (hx : x ∈ xs) : ∃ y ∈ ys, R x y := by
  induction h with
  | nil => exact absurd hx List.not_mem_nil
  | cons hxy _ ih =>
      rcases List.mem_cons.1 hx with rfl | hx
      · exact ⟨_, List.mem_cons_self, hxy⟩
      · exact (ih hx).imp fun _ h => ⟨List.mem_cons_of_mem _ h.1, h.2⟩
  | again _ _ _ ih => exact (ih hx).imp fun _ h => ⟨List.mem_cons_of_mem _ h.1, h.2⟩

/-- Partners of what has been seen can be put in front. -/
theorem append_again (h : Padded R seen xs ys) (hys' : ∀ y ∈ ys', ∃ x ∈ seen, R x y) :
    Padded R seen xs (ys' ++ ys) := by
  induction ys' with
  | nil => exact h
  | cons y ys' ih =>
      rw [List.forall_mem_cons] at hys'
      obtain ⟨⟨x, hx, hxy⟩, hys'⟩ := hys'
      exact .again hx hxy (ih hys')

theorem append (h : Padded R seen xs ys) (h' : Padded R seen' xs' ys')
    (hseen : ∀ x ∈ seen', x ∈ seen ∨ x ∈ xs) : Padded R seen (xs ++ xs') (ys ++ ys') := by
  induction h with
  | nil => exact h'.mono fun x hx => (hseen x hx).resolve_right List.not_mem_nil
  | cons hxy _ ih =>
      refine .cons hxy (ih fun x hx => ?_)
      rw [List.mem_cons, or_assoc, or_left_comm, ← List.mem_cons]
      exact hseen x hx
  | again hx hxy _ ih => exact .again hx hxy (ih hseen)

/-- First comes the partner of the first entry. -/
theorem exists_cons {x : α} (h : Padded R [] (x :: xs) ys) :
    ∃ y ys', ys = y :: ys' ∧ R x y ∧ Padded R [x] xs ys' := by
  cases h with
  | cons hxy hrest => exact ⟨_, _, rfl, hxy, hrest⟩
  | again hx => exact absurd hx List.not_mem_nil

theorem map {R' : γ → δ → Prop} {f : α → γ} {g : β → δ} (h : Padded R seen xs ys)
    (hfg : ∀ x y, R x y → R' (f x) (g y)) : Padded R' (seen.map f) (xs.map f) (ys.map g) := by
  induction h with
  | nil => exact .nil
  | cons hxy _ ih => exact .cons (hfg _ _ hxy) ih
  | again hx hxy _ ih => exact .again (List.mem_map_of_mem hx) (hfg _ _ hxy) ih

theorem filterMap {R' : γ → δ → Prop} {f : α → Option γ} {g : β → Option δ}
    (h : Padded R seen xs ys) (hfg : ∀ x y, R x y → Option.Rel R' (f x) (g y)) :
    Padded R' (seen.filterMap f) (xs.filterMap f) (ys.filterMap g) := by
  induction h with
  | nil => exact .nil
  | @cons _ x y _ _ hxy _ ih =>
      have hone := hfg x y hxy
      cases hx : f x with
      | none =>
          cases hy : g y with
          | none =>
              rw [List.filterMap_cons_none hx] at ih
              rwa [List.filterMap_cons_none hx, List.filterMap_cons_none hy]
          | some _ =>
              rw [hx, hy] at hone
              cases hone
      | some a =>
          rw [List.filterMap_cons_some hx] at ih
          cases hy : g y with
          | none =>
              rw [hx, hy] at hone
              cases hone
          | some b =>
              rw [hx, hy] at hone
              rw [List.filterMap_cons_some hx, List.filterMap_cons_some hy]
              cases hone with
              | some hab => exact .cons hab ih
  | @again _ x y _ _ hmem hxy _ ih =>
      have hone := hfg x y hxy
      cases hy : g y with
      | none => rwa [List.filterMap_cons_none hy]
      | some b =>
          rw [hy] at hone
          rw [List.filterMap_cons_some hy]
          generalize hx : f x = a at hone
          cases hone with
          | some hab => exact .again (List.mem_filterMap.2 ⟨x, hmem, hx⟩) hab ih

/-- Partners of the entries are padded as the entries are. -/
theorem comp {R' : γ → δ → Prop} {A : γ → α → Prop} {B : δ → β → Prop} {zs zseen : List γ}
    {ws : List δ} (h : Padded R seen xs ys) (hz : List.Forall₂ A zs xs)
    (hw : List.Forall₂ B ws ys) (hseen : ∀ x ∈ seen, ∃ z ∈ zseen, A z x)
    (hR : ∀ z x y w, A z x → R x y → B w y → R' z w) : Padded R' zseen zs ws := by
  induction h generalizing zs ws zseen with
  | nil =>
      cases hz
      cases hw
      exact .nil
  | cons hxy _ ih =>
      cases hz with
      | cons ha hz =>
          cases hw with
          | cons hb hw =>
              refine .cons (hR _ _ _ _ ha hxy hb) (ih hz hw ?_)
              refine List.forall_mem_cons.2 ⟨⟨_, List.mem_cons_self, ha⟩, fun x hx => ?_⟩
              exact (hseen x hx).imp fun z hz => ⟨List.mem_cons_of_mem _ hz.1, hz.2⟩
  | again hx hxy _ ih =>
      cases hw with
      | cons hb hw =>
          obtain ⟨z, hzmem, ha⟩ := hseen _ hx
          exact .again hzmem (hR _ _ _ _ ha hxy hb) (ih hz hw hseen)

/-- Where every entry stands for some entries of another kind, and its partners for a padding of
them, there is a padding of all of them together. -/
theorem exists_flatten {S : γ → δ → Prop} {B : β → List δ → Prop} {parts : List (List γ)}
    {sparts : List (List γ)} (h : Padded R seen xs ys)
    (hparts : List.Forall₂ (fun x part => ∀ y, R x y → ∃ part', B y part' ∧ Padded S [] part part')
      xs parts)
    (hseen : List.Forall₂ (fun x part => ∀ y, R x y → ∃ part', B y part' ∧ Padded S [] part part')
      seen sparts) :
    ∃ parts', List.Forall₂ B ys parts' ∧ Padded S sparts.flatten parts.flatten parts'.flatten := by
  induction h generalizing parts sparts with
  | nil =>
      cases hparts
      exact ⟨[], .nil, .nil⟩
  | @cons _ x y _ _ hxy _ ih =>
      cases hparts with
      | @cons _ part _ parts hone hparts =>
          obtain ⟨part', hpart', hpadded⟩ := hone y hxy
          obtain ⟨parts', hparts', hrest⟩ := ih hparts (.cons hone hseen)
          refine ⟨part' :: parts', .cons hpart' hparts', ?_⟩
          rw [List.flatten_cons, List.flatten_cons]
          refine (hpadded.mono (List.nil_subset _)).append hrest fun c hc => ?_
          rw [List.flatten_cons, List.mem_append] at hc
          exact hc.symm
  | @again _ x y _ _ hx hxy _ ih =>
      obtain ⟨parts', hparts', hrest⟩ := ih hparts hseen
      obtain ⟨part, hpart, hone⟩ := QueryPlan.exists_of_mem_left hseen hx
      obtain ⟨part', hpart', hpadded⟩ := hone y hxy
      refine ⟨part' :: parts', .cons hpart' hparts', ?_⟩
      rw [List.flatten_cons]
      refine hrest.append_again fun d hd => ?_
      obtain ⟨c, hc, hcd⟩ := hpadded.exists_of_mem hd
      exact ⟨c, List.mem_flatten.2 ⟨part, hpart, hc.resolve_left List.not_mem_nil⟩, hcd⟩

/-- What a step has absorbed makes no difference any more: one value once taken in, and whatever
comes after it. -/
structure Absorbs (step : δ → α → δ) : Prop where
  self : ∀ s x, step (step s x) x = step s x
  later : ∀ s x y, step s x = s → step (step s y) x = step s y

/-- Going through a padded list comes to the same. -/
theorem foldl_eq {step : δ → α → δ} {ys : List α} (hstep : Absorbs step)
    (h : Padded Eq seen xs ys) {s : δ} (hseen : ∀ x ∈ seen, step s x = s) :
    xs.foldl step s = ys.foldl step s := by
  induction h generalizing s with
  | nil => rfl
  | @cons _ x _ _ _ hxy _ ih =>
      subst hxy
      rw [List.foldl_cons, List.foldl_cons]
      refine ih (List.forall_mem_cons.2 ⟨hstep.self s x, fun x' hx' => ?_⟩)
      exact hstep.later s x' x (hseen x' hx')
  | @again _ x _ _ _ hx hxy _ ih =>
      subst hxy
      rw [List.foldl_cons, hseen x hx]
      exact ih hseen

end Padded

end QueryPlan
