import Mathlib.Data.List.Forall2
import QueryPlan.Plan.Collect

/-!
# Runs that come to a result

Collecting and compiling are computations with a state that may fail. `Runs x s a s'` says that
`x`, started in `s`, comes to the result `a` in `s'`. A run of a composed computation is taken
apart into runs of its parts by the lemmas below, so that no proof about the compiler has to
look at how failure and state are put together.
-/

set_option autoImplicit false

namespace QueryPlan

variable {ε σ α β : Type}

/-- Started in `s`, the computation comes to the result `a` in `s'`. -/
def Runs (x : ExceptT ε (StateM σ) α) (s : σ) (a : α) (s' : σ) : Prop :=
  x.run.run s = (.ok a, s')

/-! ## Single steps -/

theorem runs_pure {a b : α} {s s' : σ} :
    Runs (pure a : ExceptT ε (StateM σ) α) s b s' ↔ b = a ∧ s' = s := by
  show ((Except.ok a, s) : Except ε α × σ) = (.ok b, s') ↔ _
  simp [Prod.ext_iff, eq_comm]

theorem not_runs_throw {e : ε} {a : α} {s s' : σ} :
    ¬ Runs (throw e : ExceptT ε (StateM σ) α) s a s' := by
  show ¬ ((Except.error e, s) : Except ε α × σ) = (.ok a, s')
  simp

theorem runs_get {a s s' : σ} :
    Runs (get : ExceptT ε (StateM σ) σ) s a s' ↔ a = s ∧ s' = s := by
  show ((Except.ok s, s) : Except ε σ × σ) = (.ok a, s') ↔ _
  simp [Prod.ext_iff, eq_comm]

theorem runs_set {t s s' : σ} {u : PUnit} :
    Runs (set t : ExceptT ε (StateM σ) PUnit) s u s' ↔ s' = t := by
  show ((Except.ok PUnit.unit, t) : Except ε PUnit × σ) = (.ok u, s') ↔ _
  simp [Prod.ext_iff, eq_comm]

theorem runs_modify {f : σ → σ} {s s' : σ} {u : PUnit} :
    Runs (modify f : ExceptT ε (StateM σ) PUnit) s u s' ↔ s' = f s := by
  show ((Except.ok PUnit.unit, f s) : Except ε PUnit × σ) = (.ok u, s') ↔ _
  simp [Prod.ext_iff, eq_comm]

theorem runs_modifyGet {f : σ → α × σ} {s s' : σ} {a : α} :
    Runs (modifyGet f : ExceptT ε (StateM σ) α) s a s' ↔ a = (f s).1 ∧ s' = (f s).2 := by
  show ((Except.ok (f s).1, (f s).2) : Except ε α × σ) = (.ok a, s') ↔ _
  simp [Prod.ext_iff, eq_comm]

/-- A computation without failure, as a step. -/
theorem runs_lift {x : StateM σ α} {s s' : σ} {a : α} :
    Runs (liftM x : ExceptT ε (StateM σ) α) s a s' ↔ x.run s = (a, s') := by
  show ((Except.ok (x.run s).1, (x.run s).2) : Except ε α × σ) = (.ok a, s') ↔ _
  rcases x.run s with ⟨b, t⟩
  constructor
  · intro h
    cases h
    rfl
  · intro h
    cases h
    rfl

/-! ## Composition -/

theorem run_bind (x : ExceptT ε (StateM σ) α) (f : α → ExceptT ε (StateM σ) β) (s : σ) :
    (x >>= f).run.run s =
      match x.run.run s with
      | (.ok a, s₁) => (f a).run.run s₁
      | (.error e, s₁) => (.error e, s₁) := by
  show (match x.run.run s with | (a, s₁) => (ExceptT.bindCont f a).run s₁) = _
  rcases x.run.run s with ⟨_ | _, _⟩
  · rfl
  · rfl

/-- A run of two steps is a run of the first and then one of the second. -/
theorem runs_bind {x : ExceptT ε (StateM σ) α} {f : α → ExceptT ε (StateM σ) β} {s s' : σ}
    {b : β} : Runs (x >>= f) s b s' ↔ ∃ a s₁, Runs x s a s₁ ∧ Runs (f a) s₁ b s' := by
  unfold Runs
  rw [run_bind]
  rcases x.run.run s with ⟨e | a, s₁⟩
  · constructor
    · intro h
      cases h
    · rintro ⟨_, _, h, _⟩
      cases h
  · constructor
    · intro h
      exact ⟨a, s₁, rfl, h⟩
    · rintro ⟨_, _, h, h'⟩
      cases h
      exact h'

/-- What a run comes to is determined by where it starts. -/
theorem Runs.unique {x : ExceptT ε (StateM σ) α} {s s₁ s₂ : σ} {a b : α}
    (h₁ : Runs x s a s₁) (h₂ : Runs x s b s₂) : a = b ∧ s₁ = s₂ := by
  have h : ((Except.ok a, s₁) : Except ε α × σ) = (.ok b, s₂) := h₁.symm.trans h₂
  cases h
  exact ⟨rfl, rfl⟩

/-! ## Loops -/

theorem runs_forM_nil {f : α → ExceptT ε (StateM σ) PUnit} {s s' : σ} {u : PUnit} :
    Runs (([] : List α).forM f) s u s' ↔ s' = s :=
  runs_pure.trans ⟨And.right, fun h => ⟨rfl, h⟩⟩

theorem runs_forM_cons {f : α → ExceptT ε (StateM σ) PUnit} {x : α} {xs : List α} {s s' : σ}
    {u : PUnit} :
    Runs ((x :: xs).forM f) s u s' ↔
      ∃ s₁, Runs (f x) s ⟨⟩ s₁ ∧ Runs (xs.forM f) s₁ ⟨⟩ s' := by
  rw [List.forM_eq_forM, List.forM_cons, runs_bind]
  exact ⟨fun ⟨_, s₁, h, h'⟩ => ⟨s₁, h, h'⟩, fun ⟨s₁, h, h'⟩ => ⟨⟨⟩, s₁, h, h'⟩⟩

theorem runs_forM_append {f : α → ExceptT ε (StateM σ) PUnit} {xs ys : List α} {s s' : σ} :
    Runs ((xs ++ ys).forM f) s ⟨⟩ s' ↔
      ∃ s₁, Runs (xs.forM f) s ⟨⟩ s₁ ∧ Runs (ys.forM f) s₁ ⟨⟩ s' := by
  induction xs generalizing s with
  | nil => exact ⟨fun h => ⟨s, runs_forM_nil.2 rfl, h⟩, fun ⟨_, hs, h⟩ => runs_forM_nil.1 hs ▸ h⟩
  | cons x xs ih =>
      rw [List.cons_append, runs_forM_cons]
      constructor
      · rintro ⟨s₁, hx, h⟩
        obtain ⟨s₂, hxs, hys⟩ := ih.1 h
        exact ⟨s₂, runs_forM_cons.2 ⟨s₁, hx, hxs⟩, hys⟩
      · rintro ⟨s₂, h, hys⟩
        obtain ⟨s₁, hx, hxs⟩ := runs_forM_cons.1 h
        exact ⟨s₁, hx, ih.2 ⟨s₂, hxs, hys⟩⟩

theorem runs_foldlM_nil {f : β → α → ExceptT ε (StateM σ) β} {b c : β} {s s' : σ} :
    Runs (([] : List α).foldlM f b) s c s' ↔ c = b ∧ s' = s :=
  runs_pure

theorem runs_foldlM_cons {f : β → α → ExceptT ε (StateM σ) β} {b c : β} {x : α} {xs : List α}
    {s s' : σ} :
    Runs ((x :: xs).foldlM f b) s c s' ↔
      ∃ b₁ s₁, Runs (f b x) s b₁ s₁ ∧ Runs (xs.foldlM f b₁) s₁ c s' := by
  rw [List.foldlM_cons, runs_bind]

theorem runs_mapM_nil {f : α → ExceptT ε (StateM σ) β} {bs : List β} {s s' : σ} :
    Runs (([] : List α).mapM f) s bs s' ↔ bs = [] ∧ s' = s := by
  rw [List.mapM_nil, runs_pure]

theorem runs_mapM_cons {f : α → ExceptT ε (StateM σ) β} {x : α} {xs : List α} {bs : List β}
    {s s' : σ} :
    Runs ((x :: xs).mapM f) s bs s' ↔
      ∃ b s₁ bs', Runs (f x) s b s₁ ∧ Runs (xs.mapM f) s₁ bs' s' ∧ bs = b :: bs' := by
  rw [List.mapM_cons, runs_bind]
  constructor
  · rintro ⟨b, s₁, hb, h⟩
    obtain ⟨bs', s₂, hbs, h⟩ := runs_bind.1 h
    obtain ⟨rfl, rfl⟩ := runs_pure.1 h
    exact ⟨b, s₁, bs', hb, hbs, rfl⟩
  · rintro ⟨b, s₁, bs', hb, hbs, rfl⟩
    exact ⟨b, s₁, hb, runs_bind.2 ⟨bs', s', hbs, runs_pure.2 ⟨rfl, rfl⟩⟩⟩

/-- A loop runs through rounds of another kind if each of its own rounds does. -/
theorem runs_mapM_imp {f g : α → ExceptT ε (StateM σ) β}
    (h : ∀ {x s b s'}, Runs (f x) s b s' → Runs (g x) s b s') {xs : List α} {bs : List β}
    {s s' : σ} (hrun : Runs (xs.mapM f) s bs s') : Runs (xs.mapM g) s bs s' := by
  induction xs generalizing s bs with
  | nil => exact runs_mapM_nil.2 (runs_mapM_nil.1 hrun)
  | cons x xs ih =>
      obtain ⟨b, s₁, bs', hone, hrest, heq⟩ := runs_mapM_cons.1 hrun
      exact runs_mapM_cons.2 ⟨b, s₁, bs', h hone, ih hrest, heq⟩

/-- Each result comes from a run of its own. -/
theorem forall₂_of_runs_mapM {f : α → ExceptT ε (StateM σ) β} {xs : List α} {bs : List β}
    {s s' : σ} (hrun : Runs (xs.mapM f) s bs s') :
    List.Forall₂ (fun x b => ∃ s s', Runs (f x) s b s') xs bs := by
  induction xs generalizing s bs with
  | nil =>
      obtain ⟨rfl, -⟩ := runs_mapM_nil.1 hrun
      exact .nil
  | cons x xs ih =>
      obtain ⟨b, s₁, bs', hone, hrest, rfl⟩ := runs_mapM_cons.1 hrun
      exact .cons ⟨s, s₁, hone⟩ (ih hrest)

theorem runs_forM_imp {f g : α → ExceptT ε (StateM σ) PUnit}
    (h : ∀ {x s s'}, Runs (f x) s ⟨⟩ s' → Runs (g x) s ⟨⟩ s') {xs : List α} {s s' : σ}
    (hrun : Runs (xs.forM f) s ⟨⟩ s') : Runs (xs.forM g) s ⟨⟩ s' := by
  induction xs generalizing s with
  | nil => exact runs_forM_nil.2 (runs_forM_nil.1 hrun)
  | cons x xs ih =>
      obtain ⟨s₁, hone, hrest⟩ := runs_forM_cons.1 hrun
      exact runs_forM_cons.2 ⟨s₁, h hone, ih hrest⟩

/-- Each result of a loop is that of one round, with the rounds before and after it. -/
theorem exists_of_mem_mapM {f : α → ExceptT ε (StateM σ) β} {xs : List α} {ys : List β}
    {s s' : σ} (h : Runs (xs.mapM f) s ys s') {y : β} (hy : y ∈ ys) :
    ∃ before x after built rest t u, xs = before ++ x :: after ∧
      Runs (before.mapM f) s built t ∧ Runs (f x) t y u ∧ Runs (after.mapM f) u rest s' := by
  induction xs generalizing s ys with
  | nil =>
      obtain ⟨rfl, -⟩ := runs_mapM_nil.1 h
      exact absurd hy List.not_mem_nil
  | cons x xs ih =>
      obtain ⟨y', s₁, ys', hone, hrest, rfl⟩ := runs_mapM_cons.1 h
      rcases List.mem_cons.1 hy with rfl | hy
      · exact ⟨[], x, xs, [], ys', s, s₁, rfl, runs_mapM_nil.2 ⟨rfl, rfl⟩, hone, hrest⟩
      · obtain ⟨before, x', after, built, rest, t, u, rfl, hbefore, hx, hafter⟩ := ih hrest hy
        exact ⟨x :: before, x', after, y' :: built, rest, t, u, rfl,
          runs_mapM_cons.2 ⟨y', s₁, built, hone, hbefore, rfl⟩, hx, hafter⟩

/-! ## Computations that do not fail -/

/-- Wherever it is started, the computation comes to a result. -/
def Succeeds (x : ExceptT ε (StateM σ) α) : Prop := ∀ s, ∃ a s', Runs x s a s'

theorem succeeds_pure (a : α) : Succeeds (pure a : ExceptT ε (StateM σ) α) :=
  fun s => ⟨a, s, runs_pure.2 ⟨rfl, rfl⟩⟩

/-- The second step has only to go on from what the first one can come to. -/
theorem succeeds_bind {x : ExceptT ε (StateM σ) α} {f : α → ExceptT ε (StateM σ) β}
    (hx : Succeeds x) (hf : ∀ s a s', Runs x s a s' → Succeeds (f a)) : Succeeds (x >>= f) := by
  intro s
  obtain ⟨a, s₁, ha⟩ := hx s
  obtain ⟨b, s', hb⟩ := hf s a s₁ ha s₁
  exact ⟨b, s', runs_bind.2 ⟨a, s₁, ha, hb⟩⟩

theorem succeeds_forM {f : α → ExceptT ε (StateM σ) PUnit} {xs : List α}
    (h : ∀ x ∈ xs, Succeeds (f x)) : Succeeds (xs.forM f) := by
  induction xs with
  | nil => exact succeeds_pure _
  | cons x xs ih =>
      intro s
      obtain ⟨_, s₁, hone⟩ := h x List.mem_cons_self s
      obtain ⟨_, s', hrest⟩ := ih (fun y hy => h y (List.mem_cons_of_mem _ hy)) s₁
      exact ⟨⟨⟩, s', runs_forM_cons.2 ⟨s₁, hone, hrest⟩⟩

theorem succeeds_foldlM {f : β → α → ExceptT ε (StateM σ) β} {xs : List α}
    (h : ∀ x ∈ xs, ∀ b, Succeeds (f b x)) (b : β) : Succeeds (xs.foldlM f b) := by
  induction xs generalizing b with
  | nil => exact succeeds_pure b
  | cons x xs ih =>
      rw [List.foldlM_cons]
      exact succeeds_bind (h x List.mem_cons_self b) fun _ c _ _ =>
        ih (fun y hy => h y (List.mem_cons_of_mem _ hy)) c

theorem succeeds_mapM {f : α → ExceptT ε (StateM σ) β} {xs : List α}
    (h : ∀ x ∈ xs, Succeeds (f x)) : Succeeds (xs.mapM f) := by
  induction xs with
  | nil =>
      rw [List.mapM_nil]
      exact succeeds_pure _
  | cons x xs ih =>
      rw [List.forall_mem_cons] at h
      rw [List.mapM_cons]
      refine succeeds_bind h.1 fun _ _ _ _ => ?_
      exact succeeds_bind (ih h.2) fun _ _ _ _ => succeeds_pure _

/-! ## Computations that do the same -/

/-- Wherever they are started, both computations do the same, and do not fail with the error. -/
def Coincide (e : ε) (x y : ExceptT ε (StateM σ) α) : Prop :=
  ∀ s, x.run.run s = y.run.run s ∧ (x.run.run s).1 ≠ .error e

variable {e : ε}

theorem Succeeds.coincide {x : ExceptT ε (StateM σ) α} (h : Succeeds x) : Coincide e x x := by
  intro s
  obtain ⟨a, s', hrun⟩ := h s
  refine ⟨rfl, ?_⟩
  rw [show x.run.run s = (.ok a, s') from hrun]
  simp

theorem coincide_pure (a : α) : Coincide e (pure a : ExceptT ε (StateM σ) α) (pure a) :=
  (succeeds_pure a).coincide

theorem coincide_throw {e' : ε} (h : e' ≠ e) :
    Coincide e (throw e' : ExceptT ε (StateM σ) α) (throw e') := by
  refine fun s => ⟨rfl, ?_⟩
  show (Except.error e' : Except ε α) ≠ .error e
  simpa using h

/-- The second steps have only to do the same with what the first ones can come to. -/
theorem coincide_bind {x y : ExceptT ε (StateM σ) α} {f g : α → ExceptT ε (StateM σ) β}
    (hxy : Coincide e x y) (hfg : ∀ s a s', Runs x s a s' → Coincide e (f a) (g a)) :
    Coincide e (x >>= f) (y >>= g) := by
  intro s
  obtain ⟨heq, hne⟩ := hxy s
  rw [run_bind, run_bind, ← heq]
  rcases hrun : x.run.run s with ⟨e' | a, s'⟩
  · rw [hrun] at hne
    refine ⟨rfl, fun h => hne ?_⟩
    rw [Except.error.inj h]
  · exact hfg s a s' hrun s'

theorem coincide_forM {f g : α → ExceptT ε (StateM σ) PUnit} {xs : List α}
    (h : ∀ x ∈ xs, Coincide e (f x) (g x)) : Coincide e (xs.forM f) (xs.forM g) := by
  induction xs with
  | nil => exact coincide_pure _
  | cons x xs ih =>
      rw [List.forall_mem_cons] at h
      exact coincide_bind h.1 fun _ _ _ _ => ih h.2

theorem coincide_foldlM {f g : β → α → ExceptT ε (StateM σ) β} {xs : List α}
    (h : ∀ x ∈ xs, ∀ b, Coincide e (f b x) (g b x)) (b : β) :
    Coincide e (xs.foldlM f b) (xs.foldlM g b) := by
  induction xs generalizing b with
  | nil => exact coincide_pure _
  | cons x xs ih =>
      rw [List.forall_mem_cons] at h
      rw [List.foldlM_cons, List.foldlM_cons]
      exact coincide_bind (h.1 b) fun _ c _ _ => ih h.2 c

theorem coincide_mapM {f g : α → ExceptT ε (StateM σ) β} {xs : List α}
    (h : ∀ x ∈ xs, Coincide e (f x) (g x)) : Coincide e (xs.mapM f) (xs.mapM g) := by
  induction xs with
  | nil =>
      rw [List.mapM_nil, List.mapM_nil]
      exact coincide_pure _
  | cons x xs ih =>
      rw [List.forall_mem_cons] at h
      rw [List.mapM_cons, List.mapM_cons]
      refine coincide_bind h.1 fun _ _ _ _ => ?_
      exact coincide_bind (ih h.2) fun _ _ _ _ => coincide_pure _

/-! ## Failure without a state -/

theorem ok_bind_iff {x : Except ε α} {f : α → Except ε β} {b : β} :
    x >>= f = .ok b ↔ ∃ a, x = .ok a ∧ f a = .ok b := by
  cases x with
  | error e =>
      constructor
      · intro h
        cases h
      · rintro ⟨_, h, _⟩
        cases h
  | ok a =>
      constructor
      · exact fun h => ⟨a, rfl, h⟩
      · rintro ⟨_, h, h'⟩
        cases h
        exact h'

theorem exists_ok_of_isOk {x : Except ε α} (h : x.isOk = true) : ∃ a, x = .ok a := by
  cases x with
  | error e => cases h
  | ok a => exact ⟨a, rfl⟩

/-- A loop over checks passes exactly where every check does. -/
theorem forM_eq_ok_iff {f : α → Except ε Unit} {xs : List α} :
    xs.forM f = .ok () ↔ ∀ x ∈ xs, f x = .ok () := by
  induction xs with
  | nil => exact ⟨fun _ _ hx => absurd hx List.not_mem_nil, fun _ => rfl⟩
  | cons x xs ih =>
      rw [List.forM_eq_forM, List.forM_cons, ok_bind_iff, List.forall_mem_cons, ← ih]
      constructor
      · rintro ⟨⟨⟩, hx, hxs⟩
        exact ⟨hx, hxs⟩
      · rintro ⟨hx, hxs⟩
        exact ⟨⟨⟩, hx, hxs⟩

/-- What every round keeps holds at the end of a loop that does not fail. -/
theorem foldlM_ok_induct {f : β → α → Except ε β} (inv : β → Prop) {xs : List α} {b c : β}
    (step : ∀ b x c, inv b → f b x = .ok c → inv c) (hb : inv b)
    (h : xs.foldlM f b = .ok c) : inv c := by
  induction xs generalizing b with
  | nil =>
      cases h
      exact hb
  | cons x xs ih =>
      rw [List.foldlM_cons] at h
      obtain ⟨b₁, hb₁, h⟩ := ok_bind_iff.1 h
      exact ih (step b x b₁ hb hb₁) h

/-! ## Lists that go in step -/

theorem exists_of_mem_left {R : α → β → Prop} {xs : List α} {ys : List β} {x : α}
    (h : List.Forall₂ R xs ys) (hx : x ∈ xs) : ∃ y ∈ ys, R x y := by
  induction h with
  | nil => exact absurd hx List.not_mem_nil
  | cons hxy _ ih =>
      rcases List.mem_cons.1 hx with rfl | hx
      · exact ⟨_, List.mem_cons_self, hxy⟩
      · obtain ⟨y, hy, hr⟩ := ih hx
        exact ⟨y, List.mem_cons_of_mem _ hy, hr⟩

theorem exists_of_mem_right {R : α → β → Prop} {xs : List α} {ys : List β} {y : β}
    (h : List.Forall₂ R xs ys) (hy : y ∈ ys) : ∃ x ∈ xs, R x y :=
  exists_of_mem_left (List.Forall₂.flip h) hy

/-- Partners that are mapped to the same make for the same list. -/
theorem map_eq_of_forall₂ {γ : Type} {R : α → β → Prop} {xs : List α} {ys : List β} {f : α → γ}
    {g : β → γ} (h : List.Forall₂ R xs ys) (hfg : ∀ x y, R x y → f x = g y) :
    xs.map f = ys.map g := by
  induction h with
  | nil => rfl
  | cons hxy _ ih => rw [List.map_cons, List.map_cons, hfg _ _ hxy, ih]

theorem flatMap_eq_of_forall₂ {γ : Type} {R : α → β → Prop} {xs : List α} {ys : List β}
    {f : α → List γ} {g : β → List γ} (h : List.Forall₂ R xs ys)
    (hfg : ∀ x y, R x y → f x = g y) : xs.flatMap f = ys.flatMap g := by
  rw [List.flatMap_def, List.flatMap_def, map_eq_of_forall₂ h hfg]

/-- Partners of partners go in step. -/
theorem forall₂_comp {γ : Type} {R : α → β → Prop} {S : β → γ → Prop} {xs : List α} {ys : List β}
    {zs : List γ} (h : List.Forall₂ R xs ys) (h' : List.Forall₂ S ys zs) :
    List.Forall₂ (fun x z => ∃ y, R x y ∧ S y z) xs zs := by
  induction h generalizing zs with
  | nil =>
      cases h'
      exact .nil
  | cons hxy _ ih =>
      cases h' with
      | cons hyz hrest => exact .cons ⟨_, hxy, hyz⟩ (ih hrest)

/-- The first ones that pass are partners, where partners pass together. -/
theorem rel_find? {R : α → β → Prop} {xs : List α} {ys : List β} {p : α → Bool} {q : β → Bool}
    (h : List.Forall₂ R xs ys) (hpq : ∀ x y, R x y → p x = q y) :
    Option.Rel R (xs.find? p) (ys.find? q) := by
  induction h with
  | nil => exact .none
  | @cons x y _ _ hxy _ ih =>
      rw [List.find?_cons, List.find?_cons, ← hpq x y hxy]
      cases p x with
      | true => exact .some hxy
      | false => exact ih

theorem exists_forall₂ {R : α → β → Prop} {xs : List α} (h : ∀ x ∈ xs, ∃ y, R x y) :
    ∃ ys, List.Forall₂ R xs ys := by
  induction xs with
  | nil => exact ⟨[], .nil⟩
  | cons x xs ih =>
      rw [List.forall_mem_cons] at h
      obtain ⟨y, hxy⟩ := h.1
      obtain ⟨ys, hys⟩ := ih h.2
      exact ⟨y :: ys, .cons hxy hys⟩

end QueryPlan
