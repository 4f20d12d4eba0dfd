import Mathlib.Data.Set.Function
import QueryPlan.Proofs.Syntax.Reading
import QueryPlan.Schema.TypeAnnotation

/-!
# Annotations keep the type

An annotation has a flag where a type reference has a mark, so that a reference that is marked twice
in a row has the annotation of one that is marked once. All others can be got back from their
annotations (`TypeAnnotation.toTypeRef`), and what an annotation says of its type is said of that
reference. The grammar reads no reference that is marked twice.
-/

set_option autoImplicit false

namespace QueryPlan

open QueryPlan.Syntax

namespace Syntax

namespace TypeRef

/-- Whether the outermost thing about the type is that it excludes null. -/
def isNonNull : TypeRef → Bool
  | nonNull _ => true
  | _ => false

/-- Nothing that excludes null is marked again. -/
def Grammatical : TypeRef → Prop
  | named _ => True
  | list item => item.Grammatical
  | nonNull inner => inner.isNonNull = false ∧ inner.Grammatical

/-- The name below all lists and marks. -/
def bottom : TypeRef → String
  | named name => name
  | list item => item.bottom
  | nonNull inner => inner.bottom

/-- The type with a mark if it excludes null. -/
def marked (t : TypeRef) (nullable : Bool) : TypeRef := if nullable then t else nonNull t

theorem isNonNull_iff {t : TypeRef} : t.isNonNull = true ↔ ∃ inner, t = nonNull inner := by
  cases t <;> simp [isNonNull]

theorem text_marked (t : TypeRef) (nullable : Bool) :
    (t.marked nullable).text = t.text ++ TypeAnnotation.mark nullable := by
  cases nullable with
  | false => rfl
  | true => exact String.append_empty.symm

theorem bottom_marked (t : TypeRef) (nullable : Bool) : (t.marked nullable).bottom = t.bottom := by
  cases nullable <;> rfl

theorem isNonNull_marked {t : TypeRef} (h : t.isNonNull = false) (nullable : Bool) :
    (t.marked nullable).isNonNull = !nullable := by
  cases nullable with
  | false => rfl
  | true => exact h

end TypeRef

namespace Reader

/-- The grammar marks only names and lists. -/
theorem grammatical_typeRefBelow (n : Nat) :
    (typeRefBelow n).Yields anyToken TypeRef.Grammatical := by
  induction n with
  | zero => exact yields_failure
  | succ n ih =>
      have hnamed : (TypeRef.named <$> name).Yields anyToken
          fun t => t.isNonNull = false ∧ t.Grammatical :=
        (yields_any name).map fun _ _ => ⟨rfl, trivial⟩
      have hlist : (TypeRef.list <$> between .bracketOpen .bracketClose (typeRefBelow n)).Yields
          anyToken fun t => t.isNonNull = false ∧ t.Grammatical :=
        (ih.between .bracketOpen .bracketClose).map fun _ ht => ⟨rfl, ht⟩
      refine (hnamed.orElse hlist).bind fun base hbase => (yields_any _).bind fun bang _ => ?_
      cases bang with
      | none => exact yields_pure hbase.2
      | some p => exact yields_pure hbase

end Reader

end Syntax

namespace TypeAnnotation

/-- The reference with this annotation. -/
def toTypeRef : TypeAnnotation → TypeRef
  | named name nullable => (TypeRef.named name).marked nullable
  | list item nullable => (TypeRef.list item.toTypeRef).marked nullable

theorem text_toTypeRef (a : TypeAnnotation) : a.toTypeRef.text = a.text := by
  induction a with
  | named name nullable => exact TypeRef.text_marked _ nullable
  | list item nullable ih => rw [toTypeRef, TypeRef.text_marked, TypeRef.text, ih, text]

theorem bottom_toTypeRef (a : TypeAnnotation) : a.toTypeRef.bottom = a.innermost := by
  induction a with
  | named name nullable => exact TypeRef.bottom_marked _ nullable
  | list item nullable ih => rw [toTypeRef, TypeRef.bottom_marked, TypeRef.bottom, ih, innermost]

theorem isNonNull_toTypeRef (a : TypeAnnotation) : a.toTypeRef.isNonNull = !a.nullable := by
  cases a with
  | named name nullable => exact TypeRef.isNonNull_marked rfl nullable
  | list item nullable => exact TypeRef.isNonNull_marked rfl nullable

/-- Where null is excluded around a type that is not marked itself, its annotation is that of the
marked type. -/
theorem toTypeRef_ofTypeRefWith {t : TypeRef} (h : t.Grammatical) {nullable : Bool}
    (hmark : nullable = true ∨ t.isNonNull = false) :
    (ofTypeRefWith t nullable).toTypeRef = t.marked nullable := by
  induction t generalizing nullable with
  | named name => rfl
  | list item ih =>
      -- below a list nothing has been excluded yet
      have hitem := ih h (Or.inl rfl)
      rw [ofTypeRefWith, toTypeRef, hitem]
      rfl
  | nonNull inner ih =>
      rcases hmark with rfl | hmark
      · exact ih h.2 (Or.inr h.1)
      · cases hmark

theorem toTypeRef_ofTypeRef {t : TypeRef} (h : t.Grammatical) : (ofTypeRef t).toTypeRef = t :=
  toTypeRef_ofTypeRefWith h (Or.inl rfl)

/-- **Annotations keep and print the declared type.** The references that the grammar reads mark
nothing twice. Of such references no two have the same annotation, and the annotation of each is
written like it, has its name at the bottom, and excludes null exactly where the reference is marked
on the outside. -/
theorem ofTypeRef_keeps :
    (∀ ts t rest, Reader.typeRef.run ts = some (t, rest) → t.Grammatical) ∧
    Set.InjOn ofTypeRef {t | t.Grammatical} ∧
    ∀ t : TypeRef, t.Grammatical →
      (ofTypeRef t).text = t.text ∧ (ofTypeRef t).innermost = t.bottom ∧
        ((ofTypeRef t).nullable = false ↔ ∃ inner, t = .nonNull inner) := by
  refine ⟨fun ts t rest hread => ?_, fun t ht u hu heq => ?_, fun t ht => ?_⟩
  · exact (Reader.grammatical_typeRefBelow _ ts t rest (fun _ _ => trivial) hread).1
  · rw [← toTypeRef_ofTypeRef ht, heq, toTypeRef_ofTypeRef hu]
  · have hback := toTypeRef_ofTypeRef ht
    refine ⟨?_, ?_, ?_⟩
    · rw [← text_toTypeRef, hback]
    · rw [← bottom_toTypeRef, hback]
    · have hmark : t.isNonNull = !(ofTypeRef t).nullable := by rw [← isNonNull_toTypeRef, hback]
      rw [← TypeRef.isNonNull_iff, hmark, Bool.not_eq_true']

/-- Lists of lists, where the outer lists and the items are marked. -/
def characters : TypeRef := .nonNull (.list (.list (.nonNull (.named "Character"))))

theorem ofTypeRef_keeps_characters :
    characters.Grammatical ∧ (ofTypeRef characters).text = "[[Character!]]!" ∧
      (ofTypeRef characters).innermost = "Character" ∧
        (ofTypeRef characters).nullable = false := by
  have hgrammatical : characters.Grammatical := ⟨rfl, rfl, trivial⟩
  obtain ⟨htext, hinnermost, hnullable⟩ := ofTypeRef_keeps.2.2 characters hgrammatical
  exact ⟨hgrammatical, htext.trans (by decide), hinnermost, hnullable.2 ⟨_, rfl⟩⟩

end TypeAnnotation

end QueryPlan
