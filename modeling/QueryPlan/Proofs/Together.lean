import QueryPlan.Proofs.Run

/-!
# Runs side by side

Two computations with states of their own are run side by side. `Together R x y s t` says that they
fail with the same error, or that both come to results, which `R` relates along with the states
that are left. A proof that two compilations do alike goes through their steps in pairs, and never
through the runs of one of them alone.
-/

set_option autoImplicit false

namespace QueryPlan

variable {ε σ τ α β α' β' : Type}

/-! ## Related ends -/

/-- Started in `s` and in `t`, both computations fail with the same error or come to ends that are
related. -/
def Together (R : α → σ → β → τ → Prop) (x : ExceptT ε (StateM σ) α) (y : ExceptT ε (StateM τ) β)
    (s : σ) (t : τ) : Prop :=
  (∃ e, (x.run.run s).1 = .error e ∧ (y.run.run t).1 = .error e) ∨
    ∃ a s' b t', Runs x s a s' ∧ Runs y t b t' ∧ R a s' b t'

section Steps

variable {R : α → σ → β → τ → Prop} {R' : α' → σ → β' → τ → Prop} {x : ExceptT ε (StateM σ) α}
  {y : ExceptT ε (StateM τ) β} {s s' : σ} {t t' : τ} {a : α} {b : β}

theorem together_of_runs (hx : Runs x s a s') (hy : Runs y t b t') (h : R a s' b t') :
    Together R x y s t :=
  Or.inr ⟨a, s', b, t', hx, hy, h⟩

theorem together_pure (h : R a s b t) :
    Together R (pure a : ExceptT ε (StateM σ) α) (pure b) s t :=
  together_of_runs (runs_pure.2 ⟨rfl, rfl⟩) (runs_pure.2 ⟨rfl, rfl⟩) h

theorem together_throw (e : ε) :
    Together R (throw e : ExceptT ε (StateM σ) α) (throw e) s t :=
  Or.inl ⟨e, rfl, rfl⟩

theorem Together.mono {Q : α → σ → β → τ → Prop} (h : Together R x y s t)
    (hRQ : ∀ a s' b t', Runs x s a s' → R a s' b t' → Q a s' b t') : Together Q x y s t := by
  rcases h with h | ⟨a, s', b, t', hx, hy, h⟩
  · exact Or.inl h
  · exact together_of_runs hx hy (hRQ a s' b t' hx h)

/-- Where both computations are known to come to ends, these are related. -/
theorem Together.of_runs (h : Together R x y s t) (hx : Runs x s a s') (hy : Runs y t b t') :
    R a s' b t' := by
  rcases h with ⟨e, he, -⟩ | ⟨_, _, _, _, hx', hy', h⟩
  · rw [show x.run.run s = (.ok a, s') from hx] at he
    cases he
  · obtain ⟨rfl, rfl⟩ := hx.unique hx'
    obtain ⟨rfl, rfl⟩ := hy.unique hy'
    exact h

/-- What fails as a first step fails altogether. -/
theorem run_bind_error {e : ε} {f : α → ExceptT ε (StateM σ) α'}
    (h : (x.run.run s).1 = .error e) : ((x >>= f).run.run s).1 = .error e := by
  rw [run_bind]
  rcases hrun : x.run.run s with ⟨_ | a, s'⟩
  · rw [hrun] at h
    cases h
    rfl
  · rw [hrun] at h
    cases h

theorem run_bind_of_runs {f : α → ExceptT ε (StateM σ) α'} (h : Runs x s a s') :
    (x >>= f).run.run s = (f a).run.run s' := by
  rw [run_bind, show x.run.run s = (.ok a, s') from h]

/-- The second steps have only to go on together from ends of the first ones that are related. -/
theorem Together.bind {f : α → ExceptT ε (StateM σ) α'} {g : β → ExceptT ε (StateM τ) β'}
    (h : Together R x y s t)
    (hfg : ∀ a s' b t', R a s' b t' → Together R' (f a) (g b) s' t') :
    Together R' (x >>= f) (y >>= g) s t := by
  rcases h with ⟨e, hx, hy⟩ | ⟨a, s', b, t', hx, hy, h⟩
  · exact Or.inl ⟨e, run_bind_error hx, run_bind_error hy⟩
  · have hrest := hfg a s' b t' h
    unfold Together Runs at hrest ⊢
    rwa [run_bind_of_runs hx, run_bind_of_runs hy]

end Steps

/-! ## The same results -/

/-- From whatever states, both computations fail with the same error or come to the same
result. -/
def SameResult (x : ExceptT ε (StateM σ) α) (y : ExceptT ε (StateM τ) α) : Prop :=
  ∀ s t, Together (fun a _ b _ => b = a) x y s t

theorem sameResult_pure (a : α) :
    SameResult (pure a : ExceptT ε (StateM σ) α) (pure a : ExceptT ε (StateM τ) α) :=
  fun _ _ => together_pure rfl

theorem sameResult_throw (e : ε) :
    SameResult (throw e : ExceptT ε (StateM σ) α) (throw e : ExceptT ε (StateM τ) α) :=
  fun _ _ => together_throw e

theorem SameResult.bind {x : ExceptT ε (StateM σ) α} {y : ExceptT ε (StateM τ) α}
    {f : α → ExceptT ε (StateM σ) β} {g : α → ExceptT ε (StateM τ) β} (h : SameResult x y)
    (hfg : ∀ a, SameResult (f a) (g a)) : SameResult (x >>= f) (y >>= g) := by
  refine fun s t => (h s t).bind fun a s' b t' hab => ?_
  rw [hab]
  exact hfg a s' t'

theorem sameResult_foldlM {f : β → α → ExceptT ε (StateM σ) β}
    {g : β → α → ExceptT ε (StateM τ) β} {xs : List α}
    (h : ∀ x ∈ xs, ∀ b, SameResult (f b x) (g b x)) (b : β) :
    SameResult (xs.foldlM f b) (xs.foldlM g b) := by
  induction xs generalizing b with
  | nil => exact sameResult_pure b
  | cons x xs ih =>
      rw [List.forall_mem_cons] at h
      rw [List.foldlM_cons, List.foldlM_cons]
      exact (h.1 b).bind fun c => ih h.2 c

end QueryPlan
