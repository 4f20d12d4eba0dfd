import QueryPlan.Plan.Optimizer

/-!
# Rules

A `Rule` is an optimizer given as data: one action, and a filter on where it acts. Rules edit
the drafts of a selection set, put in fields, refuse deferrals, or write down in a `Journal`
what optimizers are shown.
-/

set_option autoImplicit false

namespace QueryPlan

/-! ## The journal -/

/-- A draft as an optimizer was shown it, with the node of its first occurrence. -/
structure VisitedDraft where
  key : String
  draft : SelectionDraft
  first : Option FieldNode

/-- Something a recording rule was shown. -/
inductive JournalEntry
  | selectionSet (recorder : String) (context : PlanContext) (drafts : List VisitedDraft)
  | spread (recorder : String) (context : PlanContext) (spread : SpreadNode)
      (fragment : FragmentNode)
  | inlineFragment (recorder : String) (context : PlanContext) (fragment : InlineFragmentNode)

/-- What recording rules have written down, in order. -/
abbrev Journal := List JournalEntry

/-! ## Actions -/

/-- A change of the drafts of a selection set that asks nothing of the compiler. -/
inductive Edit
  /-- Takes a draft out; those after it close up. -/
  | remove (key : String)
  /-- Takes a draft out and moves the last one into its place. -/
  | swapRemove (key : String)
  /-- Puts a copy of the first draft under a key. -/
  | copyFirst (key : String)
  /-- Takes a draft out and puts it under another key. -/
  | rekey (old new : String)
  | reverse
  /-- Sorts the drafts by their keys. -/
  | sort
  /-- Takes out all drafts. -/
  | clear
deriving DecidableEq, Repr

/-- Makes a change. -/
def Edit.apply (m : SelectionMap) : Edit → SelectionMap
  | remove key => m.erase key
  | swapRemove key => m.swapErase key
  | copyFirst key =>
    match m.values.head? with
    | none => m
    | some d => m.insert key d
  | rekey old new =>
    match m.get? old with
    | none => m
    | some d => (m.erase old).insert new d
  | reverse => m.reverse
  | sort => m.sortKeys fun a b => decide (a ≤ b)
  | clear => .empty

/-- Which field a rule puts in. -/
inductive InsertedField
  | source (text : String)
  /-- A node that is in the syntax already. -/
  | node (id : FieldId)
deriving DecidableEq, Repr

/-- The two forms of fragments that can be deferred. -/
inductive FragmentForm
  | spread | inlineFragment
deriving DecidableEq, Repr

/-- What a rule does. -/
inductive RuleAction
  | nothing
  | edit (e : Edit)
  /-- Puts in a field, under `key` or else its response key, where there is no draft under
  `absent`. -/
  | insert (field : InsertedField) (key absent : Option String)
  /-- Lowers the source text of a field and makes no use of it. -/
  | lower (source : String)
  /-- Writes down every selection set in range, and every deferral it is asked about. -/
  | record (recorder : String)
  /-- Refuses the deferral of fragments of a form, or of spreads of a fragment and inline
  fragments on a type. -/
  | veto (only : Option FragmentForm) (fragment : Option String)
deriving DecidableEq, Repr

/-- An optimizer given as data. -/
structure Rule where
  /-- The type it acts on, or an interface of the types. -/
  onType : Option String
  /-- The response keys of the path it acts at. -/
  atPath : Option (List String)
  action : RuleAction
deriving DecidableEq, Repr

namespace Rule

/-- Whether a rule acts at a place. -/
def applies (r : Rule) (c : PlanContext) : Bool :=
  r.onType.all (fun t => t = c.objectType.name || c.objectType.implementsInterface t) &&
    r.atPath.all fun p => p = c.responseKeys

/-- Whether a rule refuses to defer a fragment of a form, that goes by a name. -/
def vetoes (r : Rule) (c : PlanContext) (form : FragmentForm) (name : Option String) : Bool :=
  match r.action with
  | .veto only fragment =>
    r.applies c && only.all (fun f => f = form) && fragment.all fun f => name = some f
  | _ => false

/-- What a recording rule writes down. -/
def note (r : Rule) (entry : String → JournalEntry) (journal : Journal) : Journal :=
  match r.action with
  | .record recorder => journal ++ [entry recorder]
  | _ => journal

/-- The drafts of a selection set with their first nodes. -/
def visited (view : SyntaxView) (m : SelectionMap) : List VisitedDraft :=
  m.entries.map fun (key, d) => ⟨key, d, d.nodes.head?.bind view.field?⟩

/-- The drafts with one more for a field node. -/
def insertNode (c : PlanContext) (view : SyntaxView) (key : Option String) (m : SelectionMap)
    (id : FieldId) : Except CompileError SelectionMap :=
  match internalSelection c view id with
  | .error e => .error e
  | .ok d => .ok (m.insert (key.getD d.responseKey) d)

/-- The conversation that a rule in range does. -/
def reviseInRange (r : Rule) (c : PlanContext) (view : SyntaxView) (m : SelectionMap)
    (journal : Journal) : Conversation (Except CompileError SelectionMap × Journal) :=
  match r.action with
  | .edit e => .done (.ok (e.apply m), journal)
  | .insert field key absent =>
    if absent.any m.contains then .done (.ok m, journal)
    else
      match field with
      | .node id => .done (insertNode c view key m id, journal)
      | .source text =>
        .lower text fun answer view =>
          match answer with
          | .error e => .done (.error e, journal)
          | .ok id => .done (insertNode c view key m id, journal)
  | .lower source =>
    .lower source fun answer _ =>
      match answer with
      | .error e => .done (.error e, journal)
      | .ok _ => .done (.ok m, journal)
  | .record _ => .done (.ok m, r.note (.selectionSet · c (visited view m)) journal)
  | .nothing | .veto _ _ => .done (.ok m, journal)

/-- The optimizer that acts as a rule says. -/
def optimizer (r : Rule) : Optimizer Journal where
  allowsSpread c spread fragment journal :=
    (!r.vetoes c .spread (some fragment.name), r.note (.spread · c spread fragment) journal)
  allowsInlineFragment c fragment journal :=
    (!r.vetoes c .inlineFragment fragment.typeCondition,
      r.note (.inlineFragment · c fragment) journal)
  revise c view m journal :=
    if r.applies c then r.reviseInRange c view m journal else .done (.ok m, journal)

end Rule

end QueryPlan
