import QueryPlan.Document.Arena
import QueryPlan.Files.FileTree
import QueryPlan.Syntax.Grammar.Executable

/-!
# Executable documents

A `Document` holds the operations and fragments of a source text, their selection sets lowered
into an arena. An operation is later chosen by its name, so operations that share a name, or
that have none beside others, make a document unfit; everything else about it is left to
whoever validates documents against a schema.
-/

set_option autoImplicit false

namespace QueryPlan

open QueryPlan.Syntax

/-- Operations and fragments in document order, with the syntax they refer to. -/
structure Document where
  operations : List OperationNode
  fragments : List FragmentNode
  syntaxArena : SyntaxArena
deriving Repr

/-- Why there is no document. -/
inductive DocumentError
  /-- An operation has the name of an earlier one. -/
  | duplicateOperationName (name : String) (first second : SyntaxLocation)
  /-- An operation without a name stands beside others. -/
  | anonymousOperationNotAlone (location : SyntaxLocation)
  | unreadable (error : ReadError)
  /-- The text does not follow the grammar. -/
  | malformed (file : Option String)
deriving DecidableEq, Repr

namespace DocumentError

/-- The text that reports an error. -/
def message : DocumentError → String
  | duplicateOperationName name _ _ =>
    s!"Multiple operations named `{name}` were defined"
  | anonymousOperationNotAlone location =>
    "An anonymous operation must be the only operation in its document (found at " ++
      location.text ++ ")"
  | unreadable error =>
    "Failure while trying to read an executable document file from disk: " ++ error.message
  | malformed _ => "Error parsing executable document"

end DocumentError

namespace Document

/-- The document without definitions. -/
def empty (file : Option String) : Document := ⟨[], [], .forDocument file⟩

/-! ## Adding definitions -/

/-- Adds a fragment behind all others. -/
def addFragment (d : Document) (f : FragmentDefinition) : Document :=
  let (set, arena) := d.syntaxArena.lowerSelectionSet f.selectionSet
  let node : FragmentNode :=
    ⟨f.name, f.typeCondition, arena.lowerDirectives f.directives, set, arena.locate f.position⟩
  { d with fragments := d.fragments ++ [node], syntaxArena := arena }

def lowerVariable (arena : SyntaxArena) (v : VariableDefinition) : VariableNode :=
  ⟨v.name, .ofTypeRef v.type, v.default, arena.locate v.position⟩

/-- Adds an operation behind all others. -/
def addOperation (d : Document) (o : OperationDefinition) : Document :=
  let (set, arena) := d.syntaxArena.lowerSelectionSet o.selectionSet
  let node : OperationNode :=
    ⟨o.kind, o.name, o.variableDefinitions.map (lowerVariable arena),
      arena.lowerDirectives o.directives, set, arena.locate o.position⟩
  { d with operations := d.operations ++ [node], syntaxArena := arena }

def addDefinition (d : Document) : ExecutableDefinition → Document
  | .operation o => d.addOperation o
  | .fragment f => d.addFragment f

/-- The definitions of a source text, lowered in order. -/
def lower (file : Option String) (definitions : ExecutableDocument) : Document :=
  definitions.foldl addDefinition (empty file)

/-! ## Conflicts between operations -/

/-- An error for each operation that has the name of an earlier one, given those before. -/
def duplicateNames (before : List OperationNode) : List OperationNode → List DocumentError
  | [] => []
  | o :: rest =>
    let conflict : List DocumentError :=
      match o.name with
      | none => []
      | some name =>
        match before.find? fun e => e.name = some name with
        | none => []
        | some e => [.duplicateOperationName name e.location o.location]
    conflict ++ duplicateNames (before ++ [o]) rest

/-- An error for each operation without a name, where there are several operations. -/
def anonymousBesideOthers (operations : List OperationNode) : List DocumentError :=
  if operations.length ≤ 1 then []
  else
    (operations.filter fun o => o.name.isNone).map fun o =>
      .anonymousOperationNotAlone o.location

/-- All conflicts between the operations of a document. -/
def conflicts (operations : List OperationNode) : List DocumentError :=
  duplicateNames [] operations ++ anonymousBesideOthers operations

/-- The document of a syntax tree. -/
def build (file : Option String) (definitions : ExecutableDocument) :
    Except (List DocumentError) Document :=
  let d := lower file definitions
  match conflicts d.operations with
  | [] => .ok d
  | errors => .error errors

/-- The document of a source text. -/
def ofSource (file : Option String) (source : String) : Except (List DocumentError) Document :=
  match ExecutableDocument.ofSource? source with
  | none => .error [.malformed file]
  | some definitions => build file definitions

/-- The document in a file. -/
def ofFile (files : FileSystem) (path : String) : Except (List DocumentError) Document :=
  match files.readText path with
  | .error e => .error [.unreadable e]
  | .ok source => ofSource (some path) source

/-! ## Choosing an operation -/

/-- Why no operation is chosen. -/
inductive LookupError
  /-- No name was asked for, and there are several operations. -/
  | ambiguous (count : Nat)
  | notFound (name : Option String)
deriving DecidableEq, Repr

/-- The text that reports an error. -/
def LookupError.message : LookupError → String
  | ambiguous count =>
    s!"No operation name was given, but the document contains {count} operations"
  | notFound (some name) => s!"No operation named `{name}` exists in the document"
  | notFound none => "The document does not contain any operations"

/-- The operation of that name; without a name, the only operation. -/
def operation (d : Document) (name : Option String) : Except LookupError OperationNode :=
  match name with
  | some _ =>
    match d.operations.find? fun o => o.name = name with
    | some o => .ok o
    | none => .error (.notFound name)
  | none =>
    match d.operations with
    | [] => .error (.notFound none)
    | [o] => .ok o
    | os => .error (.ambiguous os.length)

end Document

end QueryPlan
