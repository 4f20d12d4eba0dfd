import QueryPlan.Plan.Error
import QueryPlan.Plan.Selection
import QueryPlan.Syntax.Grammar.Executable

/-!
# Optimizers

An optimizer is asked before a fragment is deferred, and may revise each selection set before
it is finished. It works on values: on the drafts of the selection set, and on a memory of its
own that is handed from call to call. The one thing it can ask of the compiler is to lower the
source text of a field; a `Conversation` is such an exchange, which ends with a result. So an
optimizer can add to the synthetic syntax, but cannot change what is there.

A pipeline registers optimizers for all selection sets of an operation, or for those below the
selections of one field.
-/

set_option autoImplicit false

namespace QueryPlan

/-- One step from the root of an operation to a selection set. -/
structure PathSegment where
  field : Field
  responseKey : String

/-- What an optimizer sees of the place it is asked about. -/
structure PlanContext where
  schema : Schema
  objectType : ObjectType
  path : List PathSegment

namespace PlanContext

/-- The response keys on the way to the place. -/
def responseKeys (c : PlanContext) : List String := c.path.map (·.responseKey)

end PlanContext

/-! ## Lowering fields from source texts -/

/-- The only field of a source text, as it stands in braces of its own. -/
def fieldOfSource (source : String) : Except SyntheticFault Syntax.Selection :=
  match Syntax.ExecutableDocument.ofSource? ("\x7b " ++ source ++ " \x7d") with
  | none => .error .malformed
  | some [.operation o] =>
    match o.shorthand, o.selectionSet.items with
    | true, [.field head p items] => .ok (.field head p items)
    | _, _ => .error .notOneField
  | some _ => .error .notOneField

/-- Lowers the source text of a field. A text that is no field leaves the arena as it is. -/
def SyntaxArena.lowerFieldSource (a : SyntaxArena) (source : String) :
    Except CompileError FieldId × SyntaxArena :=
  match fieldOfSource source with
  | .error fault => (.error (.syntheticSyntax source fault), a)
  | .ok selection =>
    match a.lowerSelection selection with
    | (.field id, a) => (.ok id, a)
    | (_, _) => (.error (.syntheticSyntax source .notOneField), a)

/-! ## Conversation -/

/-- A conversation of an optimizer with the compiler. -/
inductive Conversation (α : Type)
  /-- The end of the conversation. -/
  | done (result : α)
  /-- Asks for the source text of a field to be lowered, and goes on with its id, or with the
  error, and with the syntax as it is then. -/
  | lower (source : String) (next : Except CompileError FieldId → SyntaxView → Conversation α)

namespace Conversation

variable {α : Type}

/-- Holds a conversation, answering with the syntax of both arenas. -/
def run (document : SyntaxArena) : Conversation α → SyntaxArena → α × SyntaxArena
  | done a, synthetic => (a, synthetic)
  | lower source next, synthetic =>
    let (answer, synthetic) := synthetic.lowerFieldSource source
    (next answer ⟨document, synthetic⟩).run document synthetic

end Conversation

/-- The draft of a selection that an optimizer puts in for a field node: it is always
included, and its sub-selections are compiled like those of any other field. -/
def internalSelection (c : PlanContext) (view : SyntaxView) (id : FieldId) :
    Except CompileError SelectionDraft :=
  match view.field? id with
  | none => .error (.syntheticSyntax id.text .noSuchNode)
  | some node =>
    match c.objectType.field? node.name with
    | none => .error (.unknownField node.name c.objectType.name node.location)
    | some field =>
      .ok
        { responseKey := node.responseKey
          field := field
          declaringType := c.objectType
          arguments := node.arguments
          selectionSet := node.selectionSet
          condition := .always
          internal := true
          nodes := [id] }

/-! ## Optimizers and pipelines -/

/-- A plug-in of the compiler with a memory of type `σ`. -/
structure Optimizer (σ : Type) where
  /-- Whether a spread of a fragment may be deferred. -/
  allowsSpread : PlanContext → SpreadNode → FragmentNode → StateM σ Bool
  /-- Whether an inline fragment may be deferred. -/
  allowsInlineFragment : PlanContext → InlineFragmentNode → StateM σ Bool
  /-- Revises the drafts of a selection set, or makes the compilation fail. -/
  revise : PlanContext → SyntaxView → SelectionMap → σ →
    Conversation (Except CompileError SelectionMap × σ)

/-- An optimizer for the selection sets below one field of a type, or of the types that
implement an interface. -/
structure FieldOptimizer (σ : Type) where
  type : String
  field : String
  optimizer : Optimizer σ

/-- Registered optimizers, in order. -/
structure Pipeline (σ : Type) where
  /-- Those for every selection set. -/
  general : List (Optimizer σ)
  /-- Those for the selection sets below a field. -/
  byField : List (FieldOptimizer σ)

namespace Pipeline

variable {σ : Type}

def empty : Pipeline σ := ⟨[], []⟩

def isEmpty (p : Pipeline σ) : Bool := p.general.isEmpty && p.byField.isEmpty

/-- Registers an optimizer for every selection set. -/
def withOptimizer (p : Pipeline σ) (o : Optimizer σ) : Pipeline σ :=
  { p with general := p.general ++ [o] }

/-- Registers an optimizer for the selection sets below a field. -/
def withFieldOptimizer (p : Pipeline σ) (type field : String) (o : Optimizer σ) : Pipeline σ :=
  { p with byField := p.byField ++ [⟨type, field, o⟩] }

/-- Whether a registration is for a field of a type or of an interface of the type. -/
def matchesField (t : ObjectType) (field : String) (o : FieldOptimizer σ) : Bool :=
  o.field = field && (o.type = t.name || t.implementsInterface o.type)

/-- The optimizers registered for a field of a type. -/
def below (p : Pipeline σ) (t : ObjectType) (field : String) : List (Optimizer σ) :=
  (p.byField.filter (matchesField t field)).map (·.optimizer)

/-- A pipeline as a debugging text: the scopes of the optimizers below fields, and how many
others there are. -/
def debugText (p : Pipeline σ) : String :=
  let scopes := p.byField.map fun o => Text.quoted s!"{o.type}.{o.field}"
  "OptimizerPipeline \x7b field_optimizers: [" ++ ", ".intercalate scopes ++
    s!"], optimizers: {p.general.length} " ++ "\x7d"

end Pipeline

end QueryPlan
