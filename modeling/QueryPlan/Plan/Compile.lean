import QueryPlan.Plan.Basic
import QueryPlan.Plan.Collect

/-!
# Compiling operations

Compiling starts at the selection set of an operation with the root type. A selection set is
built for one concrete type from the selection sets of all occurrences that lead there: its
fields are collected, its deferred fragments are built, optimizers revise what has been put
together, and then the selections get their ids. Each selection with sub-selections claims a key
of its own, a copy of the syntax where the key is taken, and its sub-selections are built for
every concrete type that the field can have.
-/

set_option autoImplicit false

namespace QueryPlan

/-! ## The state of a compilation -/

/-- What a compilation is about. -/
structure CompileInput (σ : Type) where
  schema : Schema
  document : Document
  fragments : FragmentIndex
  pipeline : Pipeline σ

/-- What has been done so far. -/
structure CompileState (σ : Type) where
  /-- The keys that are taken. -/
  claimed : List SelectionSetId
  /-- The id of the next selection. -/
  nextId : Nat
  synthetic : SyntaxArena
  variants : OrderedMap SelectionSetId SelectionVariants
  /-- What the optimizers remember. -/
  memory : σ

/-- Compiling may fail; the state it has come to then is kept. -/
abbrev CompileM (σ : Type) := ExceptT CompileError (StateM (CompileState σ))

/-- Sub-selections that are still to be compiled. -/
structure ChildJob where
  key : SelectionSetId
  declaringType : ObjectType
  field : Field
  responseKey : String
  occurrences : List Occurrence

/-- The occurrences that can be reached, under the first node of the selection they belong
to. -/
abbrev LiveOccurrences := List (FieldId × List Occurrence)

/-- A way to build a selection set for a type from its sources, at a path and with some
optimizers. -/
abbrev Build (σ : Type) :=
  ObjectType → List ClausedSet → List PathSegment → List (Optimizer σ) → CompileM σ SelectionSet

namespace CompileState

variable {σ : Type}

/-- The syntax of the document and what was put in. -/
def view (s : CompileState σ) (document : Document) : SyntaxView :=
  ⟨document.syntaxArena, s.synthetic⟩

/-- Notes that a key has been reached. -/
def reach (s : CompileState σ) (key : SelectionSetId) : CompileState σ :=
  if s.variants.contains key then s
  else { s with variants := s.variants.insert key ⟨key, .empty⟩ }

/-- Stores what was built for a key and a type. -/
def store (s : CompileState σ) (key : SelectionSetId) (set : SelectionSet) : CompileState σ :=
  { s with
    variants := s.variants.modify key fun v =>
      { v with sets := v.sets.insert set.objectType.name set } }

/-- Takes a key for a selection: the one asked for, or that of a copy of its syntax if it is
taken already. -/
def claim (s : CompileState σ) (document : Document) (key : SelectionSetId) :
    SelectionSetId × CompileState σ :=
  if key ∈ s.claimed then
    let node := ((s.view document).selectionSet? key).getD ⟨key, .synthetic, []⟩
    let (fresh, synthetic) := s.synthetic.copySelectionSet node
    (fresh, { s with synthetic := synthetic, claimed := fresh :: s.claimed })
  else (key, { s with claimed := key :: s.claimed })

end CompileState

namespace CompileInput

variable {σ : Type}

/-! ## One selection set -/

/-- Collects the fields of some sources for a type. -/
def collect (input : CompileInput σ) (context : PlanContext) (optimizers : List (Optimizer σ))
    (sources : List ClausedSet) : CompileM σ Collected := do
  let s ← get
  let scope : CollectScope σ := ⟨context, input.fragments, s.view input.document, optimizers⟩
  let (result, memory) := (scope.collectAll sources).run.run s.memory
  set { s with memory := memory }
  match result with
  | .ok c => return c
  | .error e => throw e

/-- Lets one optimizer revise a selection set. -/
def applyOptimizer (input : CompileInput σ) (context : PlanContext) (m : SelectionMap)
    (o : Optimizer σ) : CompileM σ SelectionMap := do
  let s ← get
  let conversation := o.revise context (s.view input.document) m s.memory
  let ((result, memory), synthetic) := conversation.run input.document.syntaxArena s.synthetic
  set { s with memory := memory, synthetic := synthetic }
  match result with
  | .ok m => return m
  | .error e => throw e

/-- The first selection that an optimizer has left under another key than its own. -/
def misplaced? (m : SelectionMap) : Option (String × SelectionDraft) :=
  m.entries.find? fun e => e.1 ≠ e.2.responseKey

/-- Lets all optimizers revise a selection set in turn. In the end every selection has to
stand under its response key. -/
def optimize (input : CompileInput σ) (context : PlanContext) (optimizers : List (Optimizer σ))
    (m : SelectionMap) : CompileM σ SelectionMap :=
  if optimizers.isEmpty then return m
  else do
    let m ← optimizers.foldlM (input.applyOptimizer context) m
    match misplaced? m with
    | none => return m
    | some (key, d) =>
      throw (.misplacedSelection key d.responseKey context.objectType.name)

/-- The drafts that collected fields make up. -/
def drafts (c : Collected) (objectType : ObjectType) : SelectionMap :=
  c.fields.mapValues fun key f => f.draft objectType key

/-- The reachable occurrences of all collected fields. -/
def liveOccurrences (c : Collected) : LiveOccurrences :=
  c.fields.values.filterMap fun f => f.nodes.head?.map fun n => (n, f.live)

/-- The occurrences whose sub-selections a selection has: the reachable ones that were
collected along with its first node, or else all its nodes, unconditionally. -/
def occurrencesOf (live : LiveOccurrences) (d : SelectionDraft) : List Occurrence :=
  match d.nodes.head?.bind fun n => live.find? fun e => e.1 = n with
  | some e => e.2
  | none => d.nodes.map fun n => ⟨n, .always⟩

/-- The reachable occurrences that are left when a selection has had its own. -/
def withoutOccurrencesOf (live : LiveOccurrences) (d : SelectionDraft) : LiveOccurrences :=
  match d.nodes.head? with
  | none => live
  | some n => live.filter fun e => e.1 ≠ n

/-- Gives drafts their ids and keys, in order, and lists the sub-selections to compile. -/
def finish (input : CompileInput σ) :
    LiveOccurrences → List SelectionDraft → CompileM σ (List Selection × List ChildJob)
  | _, [] => return ([], [])
  | live, d :: ds => do
    let id ← modifyGet fun s => (s.nextId, { s with nextId := s.nextId + 1 })
    match d.selectionSet with
    | none =>
      let (selections, jobs) ← input.finish live ds
      return ({ d with id := id } :: selections, jobs)
    | some key =>
      let key ← modifyGet fun s => s.claim input.document key
      let (selections, jobs) ← input.finish (withoutOccurrencesOf live d) ds
      let job : ChildJob :=
        ⟨key, d.declaringType, d.field, d.responseKey, occurrencesOf live d⟩
      return ({ d with selectionSet := some key, id := id } :: selections, job :: jobs)

/-! ## Selection sets below one another -/

/-- Builds a selection set and stores it under a key. -/
def compileVariant (build : Build σ) (key : SelectionSetId) (objectType : ObjectType)
    (sources : List ClausedSet) (path : List PathSegment) (optimizers : List (Optimizer σ)) :
    CompileM σ Unit := do
  modify (·.reach key)
  let set ← build objectType sources path optimizers
  modify (·.store key set)

/-- The sub-selections of some occurrences of a field. -/
def sourcesOf (view : SyntaxView) (occurrences : List Occurrence) : List ClausedSet :=
  occurrences.filterMap fun o =>
    ((view.field? o.node).bind (·.selectionSet)).map fun set => ⟨set, o.clause⟩

/-- Compiles the sub-selections of a selection for every concrete type of its field. The
optimizers registered for the field come in from here on down. -/
def compileChildren (input : CompileInput σ) (build : Build σ) (path : List PathSegment)
    (optimizers : List (Optimizer σ)) (job : ChildJob) : CompileM σ Unit := do
  let sources := sourcesOf ((← get).view input.document) job.occurrences
  let below := optimizers ++ input.pipeline.below job.declaringType job.field.name
  modify (·.reach job.key)
  (input.schema.possibleTypes job.field.type.innermost).forM fun t =>
    compileVariant build job.key t sources (path ++ [⟨job.field, job.responseKey⟩]) below

/-- Builds a selection set for a type from its sources; `fuel` bounds how deep selection sets
nest below it. -/
def build (input : CompileInput σ) : Nat → Build σ
  | 0, _, _, _, _ => throw .nestingTooDeep
  | fuel + 1, objectType, sources, path, optimizers => do
    let context : PlanContext := ⟨input.schema, objectType, path⟩
    let collected ← input.collect context optimizers sources
    let deferred ← collected.deferrals.mapM fun d => do
      let set ← input.build fuel objectType [⟨d.selectionSet, .always⟩] path optimizers
      return d.finish set
    let m ← input.optimize context optimizers (drafts collected objectType)
    let (selections, jobs) ← input.finish (liveOccurrences collected) m.values
    jobs.forM (input.compileChildren (input.build fuel) path optimizers)
    return ⟨objectType, selections, deferred⟩

/-! ## Operations -/

/-- Without cycles no selection set of the document is met below itself, so they nest at most
as deep as there are selection sets. What is added to that is room for the syntax that
optimizers put in. -/
def nestingBound (input : CompileInput σ) : Nat :=
  input.document.syntaxArena.selectionSets.size + 1000

/-- The state before anything is compiled: the key of the root is taken. -/
def start (input : CompileInput σ) (root : SelectionSetId) (memory : σ) : CompileState σ :=
  ⟨[root], 0, input.document.syntaxArena.syntheticAfter, .empty, memory⟩

/-- Compiles the operation of that name, or the only one, and answers also with what the
optimizers remember then. Selection sets may nest as deep as `bound` allows. -/
def compileWithin (input : CompileInput σ) (bound : Nat) (name : Option String) (memory : σ) :
    Except CompileError Plan × σ :=
  match input.document.operation name with
  | .error e => (.error (.lookup e), memory)
  | .ok operation =>
    match input.schema.rootType? operation.kind with
    | none => (.error (.noRootType operation.kind), memory)
    | some rootType =>
      let root := operation.selectionSet
      let (result, s) :=
        (compileVariant (input.build bound) root rootType [⟨root, .always⟩] []
          input.pipeline.general).run.run (input.start root memory)
      match result with
      | .error e => (.error e, s.memory)
      | .ok () =>
        (.ok
          { document := input.document
            operation := operation
            rootType := rootType
            selectionCount := s.nextId
            synthetic := s.synthetic
            variants := s.variants }, s.memory)

/-- Compiles an operation, with room for all syntax that does not nest without end. -/
def compile (input : CompileInput σ) (name : Option String) (memory : σ) :
    Except CompileError Plan × σ :=
  input.compileWithin input.nestingBound name memory

end CompileInput

end QueryPlan
