import QueryPlan.Proofs.Syntax.Reading

/-!
# Settled trees

A syntax tree has a place for the position of a selection set below every field, also where a
field has none. The grammar puts the position of the field there, so the trees it reads differ
in what was written only: such trees are `Settled`.
-/

set_option autoImplicit false

namespace QueryPlan.Syntax

/-! ## Settled trees -/

/-- A field without sub-selections has no other position than its own, here and below. -/
inductive Selection.Settled : Selection → Prop
  | leaf {head} : Settled (.field head head.position [])
  | field {head p items} : items ≠ [] → (∀ s ∈ items, Settled s) →
      Settled (.field head p items)
  | spread {head} : Settled (.spread head)
  | inlineFragment {head p items} : (∀ s ∈ items, Settled s) →
      Settled (.inlineFragment head p items)

def SelectionSet.Settled (s : SelectionSet) : Prop := ∀ item ∈ s.items, item.Settled

def ExecutableDefinition.selectionSet : ExecutableDefinition → SelectionSet
  | .operation o => o.selectionSet
  | .fragment f => f.selectionSet

def ExecutableDocument.Settled (definitions : ExecutableDocument) : Prop :=
  ∀ x ∈ definitions, x.selectionSet.Settled

namespace Reader

/-! ## The grammar reads settled trees -/

variable {set : Reader SelectionSet}

/-- What a reader of selection sets is asked for: the set is written out, and settled. -/
def Settles (set : Reader SelectionSet) : Prop :=
  set.Yields anyToken fun s => s.items ≠ [] ∧ s.Settled

theorem settled_field (hset : Settles set) : (field set).Yields anyToken Selection.Settled := by
  refine (yields_any _).bind fun name _ => (yields_any _).bind fun second _ =>
    (yields_any _).bind fun args _ => (yields_any _).bind fun dirs _ => ?_
  have hbelow : (optional set).Yields anyToken fun o => ∀ s ∈ o, s.items ≠ [] ∧ s.Settled :=
    Yields.optional hset
  refine hbelow.bind fun below hs => ?_
  cases below with
  | none =>
      -- without a selection set, the position that is put in is that of the name
      cases second with
      | none => exact yields_pure .leaf
      | some n => exact yields_pure .leaf
  | some s =>
      obtain ⟨hne, hitems⟩ := hs s rfl
      exact yields_pure (.field hne hitems)

theorem settled_inlineFragment (hset : Settles set) (typeCondition : Option String)
    (p : Position) : (inlineFragment set typeCondition p).Yields anyToken Selection.Settled :=
  (yields_any _).bind fun _ _ => hset.bind fun _ hs => yields_pure (.inlineFragment hs.2)

theorem settled_fragmentSelection (hset : Settles set) :
    (fragmentSelection set).Yields anyToken Selection.Settled := by
  refine (yields_any _).bind fun _ _ => (yields_any _).bind fun p _ =>
    (yields_any _).bind fun found _ => ?_
  cases found with
  | none => exact settled_inlineFragment hset none p
  | some n =>
      dsimp only
      split
      · exact (yields_any _).bind fun t _ => settled_inlineFragment hset (some t) p
      · exact (yields_any _).bind fun _ _ => yields_pure .spread

/-- By induction on how deep selection sets may nest. -/
theorem settles_selectionSetBelow (n : Nat) : Settles (selectionSetBelow n) := by
  induction n with
  | zero => exact yields_failure
  | succ n ih =>
      refine (yields_any _).bind fun p _ => ?_
      refine Yields.bind ((settled_field ih).orElse (settled_fragmentSelection ih)).many1 ?_
      exact fun items hitems => (yields_any _).bind fun _ _ => yields_pure hitems

theorem settles_selectionSet : Settles selectionSet := settles_selectionSetBelow depthLimit

theorem settled_operationOfKind (kind : OperationKind) (p : Position) :
    (operationOfKind kind p).Yields anyToken fun o => o.selectionSet.Settled :=
  (yields_any _).bind fun _ _ => (yields_any _).bind fun _ _ => (yields_any _).bind fun _ _ =>
    settles_selectionSet.bind fun _ hs => yields_pure hs.2

theorem settled_fragmentDefinition (p : Position) :
    (fragmentDefinition p).Yields anyToken fun f => f.selectionSet.Settled :=
  (yields_any _).bind fun _ _ => (yields_any _).bind fun _ _ => (yields_any _).bind fun _ _ =>
    (yields_any _).bind fun _ _ => settles_selectionSet.bind fun _ hs => yields_pure hs.2

theorem settled_keywordDefinition :
    keywordDefinition.Yields anyToken fun x => x.selectionSet.Settled := by
  have hoperation : ∀ kind p, (ExecutableDefinition.operation <$> operationOfKind kind p).Yields
      anyToken fun x => x.selectionSet.Settled :=
    fun kind p => (settled_operationOfKind kind p).map fun _ h => h
  refine (yields_any _).bind fun word _ => ?_
  dsimp only
  split
  · exact hoperation _ _
  split
  · exact hoperation _ _
  split
  · exact hoperation _ _
  split
  · exact (settled_fragmentDefinition _).map fun _ h => h
  · exact yields_failure

theorem settled_executableDocument :
    executableDocument.Yields anyToken fun definitions => definitions.Settled := by
  have hshorthand : shorthandQuery.Yields anyToken fun o => o.selectionSet.Settled :=
    settles_selectionSet.bind fun _ hs => yields_pure hs.2
  have hdefinition : (ExecutableDefinition.operation <$> shorthandQuery).Yields
      anyToken fun x => x.selectionSet.Settled := hshorthand.map fun _ h => h
  refine (hdefinition.orElse settled_keywordDefinition).many1.bind ?_
  exact fun definitions hd => (yields_any _).bind fun _ _ => yields_pure hd.2

end Reader

/-- Whatever is read from a source text is settled. -/
theorem ExecutableDocument.settled_of_source {source : String}
    {definitions : ExecutableDocument} (h : ofSource? source = some definitions) :
    definitions.Settled := by
  obtain ⟨tokens, -, h⟩ := Option.bind_eq_some_iff.1 h
  obtain ⟨⟨read, rest⟩, hread, rfl⟩ := Option.map_eq_some_iff.1 h
  exact (Reader.settled_executableDocument tokens read rest (fun _ _ => trivial) hread).1

end QueryPlan.Syntax
