import QueryPlan.Proofs.Syntax.Breaks
import QueryPlan.Proofs.Syntax.Reading
import QueryPlan.Syntax.Grammar.TypeSystem

/-!
# Names are on one line

A scanned name holds no line feed, so nor does any name in a syntax tree that was read from a text:
such a tree is `Legible`. Strings are another matter, they may hold anything.
-/

set_option autoImplicit false

namespace QueryPlan.Syntax

open QueryPlan.Text

/-! ## Tokens -/

/-- A name holds no line feed. -/
def Lexeme.Legible : Lexeme → Prop
  | .name s => OneLine s
  | _ => True

def Token.Legible (t : Token) : Prop := t.lexeme.Legible

namespace Token

theorem oneLine_name {c : Char} {cs : List Char} (h : isNameStart c = true) :
    OneLine (String.ofList (c :: cs.takeWhile isNameChar)) := by
  refine oneLine_ofList.2 fun hmem => ?_
  rcases List.mem_cons.1 hmem with rfl | hmem
  · exact absurd h (by decide)
  · exact absurd (List.all_eq_true.1 List.all_takeWhile _ hmem) (by decide)

theorem legible_number? {cs : List Char} {l : Lexeme} (h : number? cs = some l) : l.Legible := by
  unfold number? at h
  split at h <;>
  · obtain ⟨x, -, rfl⟩ := Option.map_eq_some_iff.1 h
    trivial

theorem legible_lexeme? {p q : Position} {cs rest : List Char} {l : Lexeme}
    (h : lexeme? p cs = some (l, q, rest)) : l.Legible := by
  unfold lexeme? at h
  split at h
  · cases h
  · cases h
    trivial
  · obtain ⟨x, -, hx⟩ := Option.map_eq_some_iff.1 h
    cases hx
    trivial
  · next c cs _ _ =>
      split at h
      · cases h
        trivial
      · split at h
        · next hstart =>
            cases h
            exact oneLine_name hstart
        · split at h
          · obtain ⟨x, hx, heq⟩ := Option.map_eq_some_iff.1 h
            cases heq
            exact legible_number? hx
          · split at h
            · obtain ⟨body, -, h⟩ := Option.bind_eq_some_iff.1 h
              obtain ⟨s, -, hs⟩ := Option.map_eq_some_iff.1 h
              cases hs
              trivial
            · cases h

theorem legible_scanFrom {fuel depth : Nat} {p : Position} {cs : List Char} {ts : List Token}
    (h : scanFrom fuel depth p cs = some ts) : ∀ t ∈ ts, t.Legible := by
  induction fuel generalizing depth p cs ts with
  | zero => cases h
  | succ fuel ih =>
      rw [scanFrom] at h
      split at h
      · cases h
        exact fun t ht => absurd ht List.not_mem_nil
      · obtain ⟨⟨l, q, rest⟩, hlexeme, h⟩ := Option.bind_eq_some_iff.1 h
        obtain ⟨depth', -, h⟩ := Option.bind_eq_some_iff.1 h
        obtain ⟨more, hmore, h⟩ := Option.bind_eq_some_iff.1 h
        cases h
        exact List.forall_mem_cons.2 ⟨legible_lexeme? hlexeme, ih hmore⟩

theorem legible_scan {source : String} {ts : List Token} (h : scan source = some ts) :
    ∀ t ∈ ts, t.Legible :=
  legible_scanFrom h

end Token

/-! ## Syntax trees -/

/-- Directives are not printed as such, but their arguments may be. -/
def Directive.Legible (d : Directive) : Prop := d.arguments.Legible

structure FieldHead.Legible (head : FieldHead) : Prop where
  aliasName : ∀ n ∈ head.aliasName, OneLine n
  name : OneLine head.name
  arguments : head.arguments.Legible
  directives : ∀ d ∈ head.directives, d.Legible

def SpreadHead.Legible (head : SpreadHead) : Prop := ∀ d ∈ head.directives, d.Legible

structure InlineHead.Legible (head : InlineHead) : Prop where
  typeCondition : ∀ t ∈ head.typeCondition, OneLine t
  directives : ∀ d ∈ head.directives, d.Legible

inductive Selection.Legible : Selection → Prop
  | field {head p items} : head.Legible → (∀ s ∈ items, Legible s) →
      Legible (.field head p items)
  | spread {head} : head.Legible → Legible (.spread head)
  | inlineFragment {head p items} : head.Legible → (∀ s ∈ items, Legible s) →
      Legible (.inlineFragment head p items)

def SelectionSet.Legible (s : SelectionSet) : Prop := ∀ item ∈ s.items, item.Legible

structure VariableDefinition.Legible (v : VariableDefinition) : Prop where
  name : OneLine v.name
  type : OneLine v.type.text
  default : ∀ d ∈ v.default, d.Legible

structure OperationDefinition.Legible (o : OperationDefinition) : Prop where
  name : ∀ n ∈ o.name, OneLine n
  variableDefinitions : ∀ v ∈ o.variableDefinitions, v.Legible
  selectionSet : o.selectionSet.Legible

structure FragmentDefinition.Legible (f : FragmentDefinition) : Prop where
  typeCondition : OneLine f.typeCondition
  selectionSet : f.selectionSet.Legible

def ExecutableDefinition.Legible : ExecutableDefinition → Prop
  | .operation o => o.Legible
  | .fragment f => f.Legible

def ExecutableDocument.Legible (definitions : ExecutableDocument) : Prop :=
  ∀ x ∈ definitions, x.Legible

/-- The names of the types that a schema document defines hold no line feed. -/
def SchemaDefinition.Legible : SchemaDefinition → Prop
  | .type d => OneLine d.name
  | _ => True

def SchemaDocument.Legible (definitions : SchemaDocument) : Prop := ∀ x ∈ definitions, x.Legible

/-! ## Values -/

theorem Value.legible_insertField {name : String} {v : Value} {fields : List (String × Value)}
    (hname : OneLine name) (hv : v.Legible) (h : ∀ f ∈ fields, OneLine f.1 ∧ f.2.Legible) :
    ∀ f ∈ insertField name v fields, OneLine f.1 ∧ f.2.Legible := by
  induction fields with
  | nil => exact List.forall_mem_singleton.2 ⟨hname, hv⟩
  | cons g rest ih =>
      rw [List.forall_mem_cons] at h
      unfold insertField
      split
      · exact List.forall_mem_cons.2 ⟨⟨hname, hv⟩, List.forall_mem_cons.2 h⟩
      · split
        · exact List.forall_mem_cons.2 ⟨⟨hname, hv⟩, h.2⟩
        · exact List.forall_mem_cons.2 ⟨h.1, ih h.2⟩

theorem Value.legible_ofFields {fields : List (String × Value)}
    (h : ∀ f ∈ fields, OneLine f.1 ∧ f.2.Legible) : (ofFields fields).Legible := by
  have hfold : ∀ acc : List (String × Value), (∀ f ∈ acc, OneLine f.1 ∧ f.2.Legible) →
      ∀ f ∈ fields.foldl (fun fs f => insertField f.1 f.2 fs) acc, OneLine f.1 ∧ f.2.Legible := by
    induction fields with
    | nil => exact fun acc hacc => hacc
    | cons g rest ih =>
        rw [List.forall_mem_cons] at h
        exact fun acc hacc => ih h.2 _ (legible_insertField h.1.1 h.1.2 hacc)
  have hall := hfold [] fun f hf => absurd hf List.not_mem_nil
  exact .object (fun f hf => (hall f hf).1) fun f hf => (hall f hf).2

theorem legible_namedValue {s : String} (h : OneLine s) : (Reader.namedValue s).Legible := by
  unfold Reader.namedValue
  split
  · exact .boolean true
  split
  · exact .boolean false
  split
  · exact .null
  · exact .enum h

namespace Reader

/-! ## What both grammars share -/

theorem legible_nameAt : nameAt.Yields Token.Legible fun n => OneLine n.1 :=
  yields_nameAt.mono fun _ h => h.elim fun _ hname => hname

theorem legible_name : name.Yields Token.Legible OneLine :=
  yields_name.mono fun _ h => h.elim fun _ hname => hname

theorem legible_typeRefBelow (n : Nat) :
    (typeRefBelow n).Yields Token.Legible fun t => OneLine t.text := by
  induction n with
  | zero => exact yields_failure
  | succ n ih =>
      have hnamed : (TypeRef.named <$> name).Yields Token.Legible fun t => OneLine t.text :=
        legible_name.map fun _ h => h
      have hlist : (TypeRef.list <$> between .bracketOpen .bracketClose (typeRefBelow n)).Yields
          Token.Legible fun t => OneLine t.text := by
        refine (ih.between .bracketOpen .bracketClose).map fun t ht => ?_
        show breaks ("[" ++ t.text ++ "]") = 0
        rw [breaks_append, breaks_append, ht]
        rfl
      refine (hnamed.orElse hlist).bind fun base hbase => ?_
      have hbang : (optional (punctuator .bang)).Yields Token.Legible fun _ => True :=
        (yields_punctuator .bang).optional.skip
      refine hbang.bind fun bang _ => ?_
      cases bang with
      | none => exact yields_pure hbase
      | some p =>
          refine yields_pure ?_
          show breaks (base.text ++ "!") = 0
          rw [breaks_append, hbase]
          rfl

theorem legible_typeRef : typeRef.Yields Token.Legible fun t => OneLine t.text :=
  legible_typeRefBelow depthLimit

theorem legible_valueBelow (constant : Bool) (n : Nat) :
    (valueBelow constant n).Yields Token.Legible Value.Legible := by
  induction n with
  | zero => exact yields_failure
  | succ n ih =>
      refine yields_token.bind fun t ht => ?_
      cases hlexeme : t.lexeme with
      | int i => exact yields_pure (.int i)
      | float x => exact yields_pure (.float x)
      | string s => exact yields_pure (.string s)
      | name s =>
          have hs : t.lexeme.Legible := ht
          rw [hlexeme] at hs
          exact yields_pure (legible_namedValue hs)
      | punctuator q =>
          have hitem : Yields (do
              let key ← name
              Functor.discard (punctuator .colon)
              return (key, ← valueBelow constant n)) Token.Legible
              fun f => OneLine f.1 ∧ f.2.Legible :=
            legible_name.bind fun _ hkey => (yields_punctuator .colon).discard.bind fun _ _ =>
              ih.bind fun _ hv => yields_pure ⟨hkey, hv⟩
          cases q with
          | dollar =>
              dsimp only
              split
              · exact yields_failure
              · exact legible_name.bind fun _ hname => yields_pure (.var hname)
          | bracketOpen =>
              exact ih.many.bind fun _ hitems =>
                (yields_punctuator .bracketClose).discard.bind fun _ _ => yields_pure (.list hitems)
          | braceOpen =>
              exact hitem.many.bind fun _ hfields =>
                (yields_punctuator .braceClose).discard.bind fun _ _ =>
                  yields_pure (Value.legible_ofFields hfields)
          | _ => exact yields_failure

theorem legible_defaultValue :
    defaultValue.Yields Token.Legible fun d => ∀ v ∈ d, v.Legible := by
  refine Yields.optional ?_
  exact (yields_punctuator .equals).discard.bind fun _ _ => legible_valueBelow true depthLimit

theorem legible_arguments : arguments.Yields Token.Legible Arguments.Legible := by
  have hargument : Yields (do
      let key ← name
      Functor.discard (punctuator .colon)
      return (key, ← value)) Token.Legible fun a => OneLine a.1 ∧ a.2.Legible :=
    legible_name.bind fun _ hkey => (yields_punctuator .colon).discard.bind fun _ _ =>
      (legible_valueBelow false depthLimit).bind fun _ hv => yields_pure ⟨hkey, hv⟩
  have hall : (between .parenOpen .parenClose (many1 do
      let key ← name
      Functor.discard (punctuator .colon)
      return (key, ← value))).Yields Token.Legible Arguments.Legible :=
    (hargument.many1.mono fun _ h => h.2).between .parenOpen .parenClose
  exact hall.orElseValue fun a ha => absurd ha List.not_mem_nil

theorem legible_directive : directive.Yields Token.Legible Directive.Legible :=
  (yields_punctuator .atSign).bind fun _ _ => legible_name.bind fun _ _ =>
    legible_arguments.bind fun _ hargs => yields_pure hargs

theorem legible_directives :
    directives.Yields Token.Legible fun ds => ∀ d ∈ ds, d.Legible :=
  legible_directive.many

/-! ## Executable documents -/

variable {set : Reader SelectionSet}

theorem legible_field (hset : set.Yields Token.Legible SelectionSet.Legible) :
    (field set).Yields Token.Legible Selection.Legible := by
  refine legible_nameAt.bind fun first hfirst => ?_
  have hsecond : (optional (do Functor.discard (punctuator .colon); name)).Yields Token.Legible
      fun o => ∀ n ∈ o, OneLine n :=
    Yields.optional ((yields_punctuator .colon).discard.bind fun _ _ => legible_name)
  refine hsecond.bind fun second hsecond => ?_
  refine legible_arguments.bind fun args hargs => legible_directives.bind fun dirs hdirs => ?_
  have hbelow : (optional set).Yields Token.Legible fun o => ∀ s ∈ o, s.Legible := hset.optional
  refine hbelow.bind fun below hs => ?_
  have hplain : FieldHead.Legible ⟨none, first.1, args, dirs, first.2⟩ :=
    ⟨fun n hn => absurd hn (by simp), hfirst, hargs, hdirs⟩
  have haliased : ∀ n, OneLine n → FieldHead.Legible ⟨some first.1, n, args, dirs, first.2⟩ := by
    intro n hn
    refine ⟨fun m hm => ?_, hn, hargs, hdirs⟩
    cases hm
    exact hfirst
  cases below with
  | none =>
      have hnone : ∀ s ∈ ([] : List Selection), s.Legible := fun s hs => absurd hs List.not_mem_nil
      cases second with
      | none => exact yields_pure (.field hplain hnone)
      | some n => exact yields_pure (.field (haliased n (hsecond n rfl)) hnone)
  | some s =>
      cases second with
      | none => exact yields_pure (.field hplain (hs s rfl))
      | some n => exact yields_pure (.field (haliased n (hsecond n rfl)) (hs s rfl))

theorem legible_inlineFragment (hset : set.Yields Token.Legible SelectionSet.Legible)
    {typeCondition : Option String} (ht : ∀ t ∈ typeCondition, OneLine t) (p : Position) :
    (inlineFragment set typeCondition p).Yields Token.Legible Selection.Legible :=
  legible_directives.bind fun _ hdirs => hset.bind fun _ hs =>
    yields_pure (.inlineFragment ⟨ht, hdirs⟩ hs)

theorem legible_fragmentSelection (hset : set.Yields Token.Legible SelectionSet.Legible) :
    (fragmentSelection set).Yields Token.Legible Selection.Legible := by
  refine (yields_punctuator .ellipsis).discard.bind fun _ _ => yields_position.bind fun p _ => ?_
  refine legible_name.optional.bind fun found _ => ?_
  cases found with
  | none => exact legible_inlineFragment hset (fun t ht => absurd ht (by simp)) p
  | some n =>
      dsimp only
      split
      · refine legible_name.bind fun t ht => legible_inlineFragment hset (fun t' ht' => ?_) p
        cases ht'
        exact ht
      · exact legible_directives.bind fun _ hdirs => yields_pure (.spread hdirs)

/-- By induction on how deep selection sets may nest. -/
theorem legible_selectionSetBelow (n : Nat) :
    (selectionSetBelow n).Yields Token.Legible SelectionSet.Legible := by
  induction n with
  | zero => exact yields_failure
  | succ n ih =>
      refine (yields_punctuator .braceOpen).bind fun p _ => ?_
      refine ((legible_field ih).orElse (legible_fragmentSelection ih)).many1.bind ?_
      exact fun items hitems => (yields_punctuator .braceClose).discard.bind fun _ _ =>
        yields_pure hitems.2

theorem legible_selectionSet : selectionSet.Yields Token.Legible SelectionSet.Legible :=
  legible_selectionSetBelow depthLimit

theorem legible_variableDefinition :
    variableDefinition.Yields Token.Legible VariableDefinition.Legible :=
  (yields_punctuator .dollar).bind fun _ _ => legible_name.bind fun _ hname =>
    (yields_punctuator .colon).discard.bind fun _ _ => legible_typeRef.bind fun _ ht =>
      legible_defaultValue.bind fun _ hd => yields_pure ⟨hname, ht, hd⟩

theorem legible_variableDefinitions :
    variableDefinitions.Yields Token.Legible fun vs => ∀ v ∈ vs, v.Legible :=
  ((legible_variableDefinition.many1.mono fun _ h => h.2).between .parenOpen .parenClose).orElseValue
    fun _ hv => absurd hv List.not_mem_nil

theorem legible_operationOfKind (kind : OperationKind) (p : Position) :
    (operationOfKind kind p).Yields Token.Legible OperationDefinition.Legible :=
  legible_name.optional.bind fun _ hname => legible_variableDefinitions.bind fun _ hvars =>
    legible_directives.bind fun _ _ => legible_selectionSet.bind fun _ hs =>
      yields_pure ⟨hname, hvars, hs⟩

theorem legible_fragmentDefinition (p : Position) :
    (fragmentDefinition p).Yields Token.Legible FragmentDefinition.Legible :=
  legible_name.bind fun _ _ => (yields_keyword "on").discard.bind fun _ _ =>
    legible_name.bind fun _ ht => legible_directives.bind fun _ _ =>
      legible_selectionSet.bind fun _ hs => yields_pure ⟨ht, hs⟩

theorem legible_keywordDefinition :
    keywordDefinition.Yields Token.Legible ExecutableDefinition.Legible := by
  have hoperation : ∀ kind p, (ExecutableDefinition.operation <$> operationOfKind kind p).Yields
      Token.Legible ExecutableDefinition.Legible :=
    fun kind p => (legible_operationOfKind kind p).map fun _ h => h
  refine legible_nameAt.bind fun word _ => ?_
  dsimp only
  split
  · exact hoperation _ _
  split
  · exact hoperation _ _
  split
  · exact hoperation _ _
  split
  · exact (legible_fragmentDefinition _).map fun _ h => h
  · exact yields_failure

theorem legible_executableDocument :
    executableDocument.Yields Token.Legible ExecutableDocument.Legible := by
  have hshorthand : (ExecutableDefinition.operation <$> shorthandQuery).Yields Token.Legible
      ExecutableDefinition.Legible := by
    refine Yields.map (P := OperationDefinition.Legible) ?_ fun _ h => h
    refine legible_selectionSet.bind fun s hs => yields_pure ⟨?_, ?_, hs⟩
    · exact fun n hn => absurd hn (by simp)
    · exact fun v hv => absurd hv List.not_mem_nil
  refine (hshorthand.orElse legible_keywordDefinition).many1.bind fun definitions hd => ?_
  exact yields_finished.bind fun _ _ => yields_pure hd.2

/-! ## Schema documents -/

theorem legible_description : description.Yields Token.Legible fun _ => True :=
  yields_stringAt.optional.skip

theorem legible_inputValue : inputValue.Yields Token.Legible fun _ => True :=
  legible_description.bind fun _ _ => legible_nameAt.bind fun _ _ =>
    (yields_punctuator .colon).discard.bind fun _ _ => legible_typeRef.bind fun _ _ =>
      legible_defaultValue.bind fun _ _ => legible_directives.discard.bind fun _ _ =>
        yields_pure trivial

theorem legible_argumentDefinitions : argumentDefinitions.Yields Token.Legible fun _ => True :=
  (legible_inputValue.many1.skip.between .parenOpen .parenClose).orElseValue trivial

theorem legible_fieldDefinition : fieldDefinition.Yields Token.Legible fun _ => True :=
  legible_description.bind fun _ _ => legible_nameAt.bind fun _ _ =>
    legible_argumentDefinitions.bind fun _ _ => (yields_punctuator .colon).discard.bind fun _ _ =>
      legible_typeRef.bind fun _ _ => legible_directives.discard.bind fun _ _ =>
        yields_pure trivial

theorem legible_body {α : Type} {r : Reader α} (hr : r.Yields Token.Legible fun _ => True) :
    (body r).Yields Token.Legible fun _ => True :=
  (hr.many1.skip.between .braceOpen .braceClose).orElseValue trivial

theorem legible_implementedInterfaces : implementedInterfaces.Yields Token.Legible fun _ => True :=
  Yields.orElseValue ((yields_keyword "implements").discard.bind fun _ _ =>
    (yields_punctuator .ampersand).optional.discard.bind fun _ _ =>
      (legible_name.separated .ampersand).skip) trivial

theorem legible_unionMembers : unionMembers.Yields Token.Legible fun _ => True :=
  Yields.orElseValue ((yields_punctuator .equals).discard.bind fun _ _ =>
    (yields_punctuator .pipe).optional.discard.bind fun _ _ =>
      (legible_name.separated .pipe).skip) trivial

theorem legible_enumValue : enumValue.Yields Token.Legible fun _ => True :=
  legible_description.discard.bind fun _ _ => legible_name.bind fun _ _ =>
    legible_directives.discard.bind fun _ _ => yields_pure trivial

theorem legible_typeBody (word : String) : (typeBody word).Yields Token.Legible fun _ => True := by
  unfold typeBody
  split
  · exact legible_directives.bind fun _ _ => yields_pure trivial
  split
  · exact legible_implementedInterfaces.bind fun _ _ => legible_directives.bind fun _ _ =>
      (legible_body legible_fieldDefinition).bind fun _ _ => yields_pure trivial
  split
  · exact legible_implementedInterfaces.bind fun _ _ => legible_directives.bind fun _ _ =>
      (legible_body legible_fieldDefinition).bind fun _ _ => yields_pure trivial
  split
  · exact legible_directives.bind fun _ _ => legible_unionMembers.bind fun _ _ =>
      yields_pure trivial
  split
  · exact legible_directives.bind fun _ _ => (legible_body legible_enumValue).bind fun _ _ =>
      yields_pure trivial
  split
  · exact legible_directives.bind fun _ _ => (legible_body legible_inputValue).bind fun _ _ =>
      yields_pure trivial
  · exact yields_failure

theorem legible_typeDeclaration (word : String) (p : Position) (desc : Option String) :
    (typeDeclaration word p desc).Yields Token.Legible fun d => OneLine d.1.name :=
  legible_name.bind fun _ hname => (legible_typeBody word).bind fun _ _ => yields_pure hname

theorem legible_extension : extension.Yields Token.Legible SchemaDefinition.Legible := by
  refine legible_nameAt.bind fun word _ => ?_
  refine (legible_typeDeclaration word.1 word.2 none).bind fun d _ => ?_
  dsimp only
  split
  · exact yields_pure trivial
  · exact yields_failure

theorem legible_rootTypes (p : Position) :
    (rootTypes p).Yields Token.Legible SchemaDefinition.Legible := by
  have hroot : rootType.Yields Token.Legible fun _ => True :=
    legible_name.bind fun _ _ => (yields_punctuator .colon).discard.bind fun _ _ =>
      legible_name.bind fun _ _ => yields_pure trivial
  refine legible_directives.discard.bind fun _ _ => ?_
  refine (hroot.many.skip.between .braceOpen .braceClose).bind fun named _ => ?_
  split
  · exact yields_pure trivial
  · exact yields_failure

theorem legible_directiveDefinition :
    directiveDefinition.Yields Token.Legible SchemaDefinition.Legible := by
  have hlocation : directiveLocation.Yields Token.Legible fun _ => True := by
    refine legible_name.bind fun n _ => ?_
    split
    · exact yields_pure trivial
    · exact yields_failure
  exact (yields_punctuator .atSign).discard.bind fun _ _ => legible_name.bind fun _ _ =>
    legible_argumentDefinitions.discard.bind fun _ _ =>
      (yields_keyword "repeatable").optional.discard.bind fun _ _ =>
        (yields_keyword "on").discard.bind fun _ _ =>
          (yields_punctuator .pipe).optional.discard.bind fun _ _ =>
            (hlocation.separated .pipe).discard.bind fun _ _ => yields_pure trivial

theorem legible_schemaDefinition :
    schemaDefinition.Yields Token.Legible SchemaDefinition.Legible := by
  refine legible_description.bind fun desc _ => legible_nameAt.bind fun word _ => ?_
  dsimp only
  split
  · exact legible_directiveDefinition
  split
  · exact legible_rootTypes word.2
  split
  · exact legible_extension
  · exact (legible_typeDeclaration _ _ _).bind fun d hd => yields_pure hd

theorem legible_schemaDocument :
    schemaDocument.Yields Token.Legible SchemaDocument.Legible :=
  legible_schemaDefinition.many1.bind fun _ hd => yields_finished.bind fun _ _ =>
    yields_pure hd.2

end Reader

/-! ## What is read from a text -/

theorem ExecutableDocument.legible_of_source {source : String}
    {definitions : ExecutableDocument} (h : ofSource? source = some definitions) :
    definitions.Legible := by
  obtain ⟨tokens, hscan, h⟩ := Option.bind_eq_some_iff.1 h
  obtain ⟨⟨read, rest⟩, hread, rfl⟩ := Option.map_eq_some_iff.1 h
  exact (Reader.legible_executableDocument tokens read rest (Token.legible_scan hscan) hread).1

theorem SchemaDocument.legible_of_source {source : String} {definitions : SchemaDocument}
    (h : ofSource? source = some definitions) : definitions.Legible := by
  obtain ⟨tokens, hscan, h⟩ := Option.bind_eq_some_iff.1 h
  obtain ⟨⟨read, rest⟩, hread, rfl⟩ := Option.map_eq_some_iff.1 h
  exact (Reader.legible_schemaDocument tokens read rest (Token.legible_scan hscan) hread).1

end QueryPlan.Syntax
