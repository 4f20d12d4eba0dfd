import Mathlib.Tactic
import QueryPlan.Syntax.Grammar.Executable

/-!
# What readers answer with

`Reader.Yields` says what a reader can answer with when all tokens before it satisfy some predicate,
and that it leaves such tokens behind. There is a rule for each way of putting readers together, so
what a grammar reads is settled reader by reader, along the grammar.
-/

set_option autoImplicit false

namespace QueryPlan.Syntax

/-- Asks nothing of a token. -/
def anyToken (_ : Token) : Prop := True

namespace Reader

/-- From tokens that satisfy `T`, whatever the reader answers with satisfies `P`, and the tokens
it leaves satisfy `T` again. -/
def Yields {α : Type} (r : Reader α) (T : Token → Prop) (P : α → Prop) : Prop :=
  ∀ (ts : List Token) (x : α) (ts' : List Token), (∀ t ∈ ts, T t) → r.run ts = some (x, ts') →
    P x ∧ ∀ t ∈ ts', T t

variable {α β : Type} {r r' : Reader α} {T : Token → Prop} {P P' : α → Prop} {Q : β → Prop}

theorem yields_any (r : Reader α) : r.Yields anyToken fun _ => True :=
  fun _ _ _ _ _ => ⟨trivial, fun _ _ => trivial⟩

theorem Yields.mono (hr : r.Yields T P) (h : ∀ x, P x → P' x) : r.Yields T P' :=
  fun ts x ts' hts hx => ⟨h x (hr ts x ts' hts hx).1, (hr ts x ts' hts hx).2⟩

/-- The answer may be left open. -/
theorem Yields.skip (hr : r.Yields T P) : r.Yields T fun _ => True := hr.mono fun _ _ => trivial

theorem yields_failure : (failure : Reader α).Yields T P := by
  intro ts x ts' _ h
  cases h

theorem yields_pure {x : α} (h : P x) : (pure x : Reader α).Yields T P := by
  intro ts y ts' hts hy
  cases hy
  exact ⟨h, hts⟩

theorem Yields.bind {f : α → Reader β} (hr : r.Yields T P)
    (hf : ∀ x, P x → (f x).Yields T Q) : (r >>= f).Yields T Q := by
  intro ts y ts' hts hy
  rw [StateT.run_bind] at hy
  obtain ⟨⟨x, rest⟩, hx, hy⟩ := Option.bind_eq_some_iff.1 hy
  obtain ⟨hP, hrest⟩ := hr ts x rest hts hx
  exact hf x hP rest y ts' hrest hy

theorem Yields.map {f : α → β} (hr : r.Yields T P) (hf : ∀ x, P x → Q (f x)) :
    (f <$> r).Yields T Q := by
  rw [map_eq_pure_bind]
  exact hr.bind fun x hx => yields_pure (hf x hx)

theorem Yields.discard (hr : r.Yields T P) : (discard r).Yields T fun _ => True :=
  hr.map fun _ _ => trivial

theorem Yields.orElse (hr : r.Yields T P) (hr' : r'.Yields T P) : (r <|> r').Yields T P := by
  intro ts x ts' hts hx
  have hor : (r <|> r').run ts = (r.run ts <|> r'.run ts) := rfl
  rw [hor] at hx
  cases hfirst : r.run ts with
  | none =>
      rw [hfirst] at hx
      exact hr' ts x ts' hts hx
  | some found =>
      rw [hfirst] at hx
      exact hr ts x ts' hts (hfirst.trans hx)

theorem Yields.orElseValue (hr : r.Yields T P) {x : α} (hx : P x) :
    (orElseValue r x).Yields T P :=
  hr.orElse (yields_pure hx)

theorem Yields.optional (hr : r.Yields T P) : (optional r).Yields T fun o => ∀ x ∈ o, P x := by
  refine Yields.orElse (hr.map fun x hx y hy => ?_) (yields_pure fun x hx => ?_)
  · cases hy
    exact hx
  · cases hx

theorem Yields.manyAlong (hr : r.Yields T P) (ts : List Token) :
    (manyAlong r ts).Yields T fun xs => ∀ x ∈ xs, P x := by
  induction ts with
  | nil => exact yields_pure fun x hx => absurd hx List.not_mem_nil
  | cons t ts ih =>
      refine Yields.orElse (hr.bind fun x hx => ih.bind fun xs hxs => yields_pure ?_)
        (yields_pure fun x hx => absurd hx List.not_mem_nil)
      exact List.forall_mem_cons.2 ⟨hx, hxs⟩

theorem yields_get : (get : Reader (List Token)).Yields T fun ts => ∀ t ∈ ts, T t := by
  intro ts x ts' hts hx
  cases hx
  exact ⟨hts, hts⟩

theorem Yields.many (hr : r.Yields T P) : (many r).Yields T fun xs => ∀ x ∈ xs, P x :=
  yields_get.bind fun ts _ => hr.manyAlong ts

theorem Yields.many1 (hr : r.Yields T P) :
    (many1 r).Yields T fun xs => xs ≠ [] ∧ ∀ x ∈ xs, P x :=
  hr.bind fun x hx => hr.many.bind fun xs hxs =>
    yields_pure ⟨List.cons_ne_nil x xs, List.forall_mem_cons.2 ⟨hx, hxs⟩⟩

theorem yields_token : token.Yields T T := by
  refine yields_get.bind fun ts hts => ?_
  cases ts with
  | nil => exact yields_failure
  | cons t ts =>
      rw [List.forall_mem_cons] at hts
      intro _ x ts' _ hx
      cases hx
      exact hts

theorem yields_punctuator (p : Punctuator) : (punctuator p).Yields T fun _ => True := by
  refine yields_token.bind fun t _ => ?_
  split
  · exact yields_pure trivial
  · exact yields_failure

theorem yields_nameAt : nameAt.Yields T fun n => ∃ p, T ⟨.name n.1, p⟩ := by
  refine yields_token.bind fun t ht => ?_
  cases hlexeme : t.lexeme with
  | name s =>
      refine yields_pure ⟨t.position, ?_⟩
      have hname : (⟨.name s, t.position⟩ : Token) = t := by rw [← hlexeme]
      rw [hname]
      exact ht
  | _ => exact yields_failure

theorem yields_name : name.Yields T fun n => ∃ p, T ⟨.name n, p⟩ :=
  yields_nameAt.bind fun _ h => yields_pure h

theorem yields_keyword (word : String) : (keyword word).Yields T fun _ => True := by
  refine yields_nameAt.bind fun _ _ => ?_
  dsimp only
  split
  · exact yields_pure trivial
  · exact yields_failure

theorem yields_stringAt : stringAt.Yields T fun _ => True := by
  refine yields_token.bind fun t _ => ?_
  cases t.lexeme with
  | string s => exact yields_pure trivial
  | _ => exact yields_failure

theorem yields_position : position.Yields T fun _ => True := by
  refine yields_get.bind fun ts _ => ?_
  cases ts with
  | nil => exact yields_failure
  | cons t ts => exact yields_pure trivial

theorem yields_finished : finished.Yields T fun _ => True := by
  refine yields_get.bind fun ts _ => ?_
  cases ts with
  | nil => exact yields_pure trivial
  | cons t ts => exact yields_failure

theorem Yields.between (hr : r.Yields T P) (opening closing : Punctuator) :
    (between opening closing r).Yields T P :=
  (yields_punctuator opening).discard.bind fun _ _ => hr.bind fun _ hx =>
    (yields_punctuator closing).discard.bind fun _ _ => yields_pure hx

theorem Yields.separated (hr : r.Yields T P) (separator : Punctuator) :
    (separated separator r).Yields T fun xs => ∀ x ∈ xs, P x := by
  have hnext : Yields (do Functor.discard (punctuator separator); r) T P :=
    (yields_punctuator separator).discard.bind fun _ _ => hr
  exact hr.bind fun _ hx => hnext.many.bind fun _ hxs =>
    yields_pure (List.forall_mem_cons.2 ⟨hx, hxs⟩)

end Reader

end QueryPlan.Syntax
