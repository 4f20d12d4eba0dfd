import QueryPlan.Document.FragmentIndex
import QueryPlan.Plan.Optimizer

/-!
# Collecting fields

What one concrete type selects is scattered over a selection set: in fields, and in inline
fragments and spreads whose type condition the type meets. Collecting walks through them in
order and merges the occurrences of a field under its response key, along with the clause under
which each can be reached. An occurrence whose clause can never hold is still noted, so that
the field is known, but it opens no path. Fragments that are deferred are set aside.
-/

set_option autoImplicit false

namespace QueryPlan

open QueryPlan.Syntax (Arguments)

/-! ## What is collected -/

/-- A part of some selection sets: those selections that are reached under a clause. -/
structure ClausedSet where
  selectionSet : SelectionSetId
  clause : Clause
deriving DecidableEq, Repr

/-- An occurrence of a field that can be reached, and when. -/
structure Occurrence where
  node : FieldId
  clause : Clause
deriving DecidableEq, Repr

/-- All occurrences of one response key. -/
structure CollectedField where
  field : Field
  arguments : Arguments
  selectionSet : Option SelectionSetId
  condition : IncludeCondition
  /-- The occurrences that can be reached. -/
  live : List Occurrence
  /-- All occurrences. -/
  nodes : List FieldId

namespace CollectedField

/-- What the first occurrence says about the field, before it is counted. -/
def ofNode (node : FieldNode) (field : Field) : CollectedField :=
  ⟨field, node.arguments, node.selectionSet, .never, [], []⟩

/-- Counts an occurrence, which has a clause if it can be reached. -/
def add (f : CollectedField) (node : FieldId) (clause : Option Clause) : CollectedField :=
  match clause with
  | none => { f with nodes := f.nodes ++ [node] }
  | some c =>
    { f with
      condition := f.condition.addClause c
      live := f.live ++ [⟨node, c⟩]
      nodes := f.nodes ++ [node] }

/-- The draft of the selection of a type that the occurrences make up. -/
def draft (f : CollectedField) (objectType : ObjectType) (responseKey : String) :
    SelectionDraft :=
  { responseKey := responseKey
    field := f.field
    declaringType := objectType
    arguments := f.arguments
    selectionSet := f.selectionSet
    condition := f.condition
    internal := false
    nodes := f.nodes }

end CollectedField

/-- The arguments of a `@defer` directive that has an effect. -/
structure DeferDirective where
  ifVariable : Option String
  label : Option String
deriving DecidableEq, Repr

namespace DeferDirective

/-- The first `@defer` directive, unless its condition is literally false. -/
def ofDirectives? (ds : List DirectiveNode) : Option DeferDirective := do
  let d ← ds.find? fun d => d.name = "defer"
  let label :=
    match d.arguments.get? "label" with
    | some (.string s) => some s
    | _ => none
  match d.arguments.get? "if" with
  | some (.boolean false) => none
  | some (.var v) => some ⟨some v, label⟩
  | _ => some ⟨none, label⟩

end DeferDirective

/-- A fragment set aside for later delivery. -/
structure PendingDeferral where
  source : DeferredSource
  directive : DeferDirective
  /-- When the fragment itself is reached. -/
  clause : Clause
  selectionSet : SelectionSetId
  typeCondition : Option String

/-- The deferred fragment with its compiled selections. -/
def PendingDeferral.finish (d : PendingDeferral) (set : SelectionSet) :
    DeferredFragment SelectionSet :=
  { source := d.source
    label := d.directive.label
    ifVariable := d.directive.ifVariable
    typeCondition := d.typeCondition
    condition := .ofClause d.clause
    selectionSet := set }

/-- Everything collected so far. -/
structure Collected where
  /-- The fields by response key, in the order of their first occurrences. -/
  fields : OrderedMap String CollectedField
  deferrals : List PendingDeferral

namespace Collected

def empty : Collected := ⟨.empty, []⟩

/-- Adds an occurrence of a field that is reached under `clause`, if it can be. -/
def addField (c : Collected) (node : FieldNode) (field : Field) (clause : Option Clause) :
    Collected :=
  let entry := (c.fields.get? node.responseKey).getD (.ofNode node field)
  let occurrence := clause.bind fun cl => cl.andDirectives node.directives
  { c with fields := c.fields.insert node.responseKey (entry.add node.id occurrence) }

def addDeferral (c : Collected) (d : PendingDeferral) : Collected :=
  { c with deferrals := c.deferrals ++ [d] }

end Collected

/-! ## The walk -/

/-- What a walk through selection sets needs to know. -/
structure CollectScope (σ : Type) where
  context : PlanContext
  fragments : FragmentIndex
  view : SyntaxView
  /-- Those that are asked before a fragment is deferred. -/
  optimizers : List (Optimizer σ)

/-- Collecting may fail, and optimizers remember what they are asked. -/
abbrev CollectM (σ : Type) := ExceptT CompileError (StateM σ)

/-- A way to go on into a selection set. -/
abbrev Enter (σ : Type) := SelectionSetId → Option Clause → Collected → CollectM σ Collected

namespace CollectScope

variable {σ : Type}

/-- Asks optimizers in order, up to the first that refuses. -/
def allAllow (ask : Optimizer σ → StateM σ Bool) : List (Optimizer σ) → StateM σ Bool
  | [] => return true
  | o :: os => do
    if ← ask o then allAllow ask os else return false

/-- Whether the type at hand meets a type condition. -/
def meets (s : CollectScope σ) (typeCondition : String) (location : SyntaxLocation) :
    Except CompileError Bool :=
  match s.context.schema.type? typeCondition with
  | none => .error (.undefinedType typeCondition location)
  | some _ =>
    .ok (s.context.schema.isPossibleType typeCondition s.context.objectType.name)

/-- Goes into a fragment whose type condition is met, or sets it aside if it is deferred. A
fragment that can never be reached is not deferred. -/
def enterFragment (s : CollectScope σ) (enter : Enter σ) (clause : Option Clause)
    (directives : List DirectiveNode) (source : DeferredSource) (set : SelectionSetId)
    (typeCondition : Option String) (ask : Optimizer σ → StateM σ Bool) (acc : Collected) :
    CollectM σ Collected := do
  let occurrence := clause.bind fun c => c.andDirectives directives
  match occurrence, DeferDirective.ofDirectives? directives with
  | some c, some d =>
    if ← allAllow ask s.optimizers then
      return acc.addDeferral ⟨source, d, c, set, typeCondition⟩
    else enter set occurrence acc
  | _, _ => enter set occurrence acc

/-- Collects one selection; `enter` goes on into fragments. -/
def collectSelection (s : CollectScope σ) (enter : Enter σ) (clause : Option Clause)
    (acc : Collected) : SelectionNode → CollectM σ Collected
  | .field id =>
    match s.view.field? id with
    | none => return acc
    | some node =>
      match s.context.objectType.field? node.name with
      | none => throw (.unknownField node.name s.context.objectType.name node.location)
      | some field => return acc.addField node field clause
  | .inlineFragment id =>
    match s.view.inlineFragment? id with
    | none => return acc
    | some node => do
      let applies ←
        match node.typeCondition with
        | none => pure true
        | some t => s.meets t node.location
      if applies then
        s.enterFragment enter clause node.directives (.inlineFragment id) node.selectionSet
          node.typeCondition (fun o => o.allowsInlineFragment s.context node) acc
      else return acc
  | .spread id =>
    match s.view.spread? id with
    | none => return acc
    | some node =>
      match s.fragments.resolve? node.fragmentName with
      | none => throw (.undefinedFragment node.fragmentName node.location)
      | some fragment => do
        if ← s.meets fragment.typeCondition fragment.location then
          s.enterFragment enter clause node.directives (.spread node.fragmentName id)
            fragment.selectionSet (some fragment.typeCondition)
            (fun o => o.allowsSpread s.context node fragment) acc
        else return acc

/-- Collects a selection set that is reached under `clause`, if it can be; `fuel` bounds how
deep fragments nest. -/
def collect (s : CollectScope σ) : Nat → Enter σ
  | 0, _, _, _ => throw .nestingTooDeep
  | fuel + 1, set, clause, acc =>
    match s.view.selectionSet? set with
    | none => return acc
    | some node => node.selections.foldlM (s.collectSelection (s.collect fuel) clause) acc

/-- Without cycles no selection set is met inside itself, so fragments nest at most as deep as
there are selection sets. -/
def nestingBound (s : CollectScope σ) : Nat :=
  s.view.document.selectionSets.size + s.view.synthetic.selectionSets.size + 1

/-- Collects several selection sets, one after another. -/
def collectAll (s : CollectScope σ) (sources : List ClausedSet) : CollectM σ Collected :=
  sources.foldlM (fun acc c => s.collect s.nestingBound c.selectionSet (some c.clause) acc)
    .empty

end CollectScope

end QueryPlan
