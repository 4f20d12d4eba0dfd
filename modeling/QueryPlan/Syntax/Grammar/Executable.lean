import QueryPlan.Syntax.Executable
import QueryPlan.Syntax.Grammar.Reader

/-!
# The grammar of executable documents

`ExecutableDocument.ofSource?` reads a source text as operations and fragments.
-/

set_option autoImplicit false

namespace QueryPlan.Syntax

namespace Reader

/-- One directive. -/
def directive : Reader Directive := do
  let p ← punctuator .atSign
  let n ← name
  return ⟨n, ← arguments, p⟩

/-- Directives, as many as there are. -/
def directives : Reader (List Directive) := many directive

/-- A field; `set` reads the selection set below it. -/
def field (set : Reader SelectionSet) : Reader Selection := do
  let (first, p) ← nameAt
  let second ← optional (do discard (punctuator .colon); name)
  let args ← arguments
  let dirs ← directives
  let head : FieldHead :=
    match second with
    | none => ⟨none, first, args, dirs, p⟩
    | some n => ⟨some first, n, args, dirs, p⟩
  match ← optional set with
  | none => return .field head p []
  | some s => return .field head s.position s.items

/-- The rest of an inline fragment, behind its type condition. -/
def inlineFragment (set : Reader SelectionSet) (typeCondition : Option String) (p : Position) :
    Reader Selection := do
  let dirs ← directives
  let s ← set
  return .inlineFragment ⟨typeCondition, dirs, p⟩ s.position s.items

/-- A spread or an inline fragment. The name `on` always begins a type condition. -/
def fragmentSelection (set : Reader SelectionSet) : Reader Selection := do
  discard (punctuator .ellipsis)
  let p ← position
  match ← optional name with
  | none => inlineFragment set none p
  | some n =>
    if n = "on" then inlineFragment set (some (← name)) p
    else return .spread ⟨n, ← directives, p⟩

/-- A selection set that nests less than `n` deep. -/
def selectionSetBelow : Nat → Reader SelectionSet
  | 0 => failure
  | n + 1 => do
    let p ← punctuator .braceOpen
    let items ← many1 (field (selectionSetBelow n) <|> fragmentSelection (selectionSetBelow n))
    discard (punctuator .braceClose)
    return ⟨p, items⟩

def selectionSet : Reader SelectionSet := selectionSetBelow depthLimit

/-- One variable of an operation. -/
def variableDefinition : Reader VariableDefinition := do
  let p ← punctuator .dollar
  let n ← name
  discard (punctuator .colon)
  let t ← typeRef
  return ⟨n, t, ← defaultValue, p⟩

/-- The variables of an operation, which are not none when they are there. -/
def variableDefinitions : Reader (List VariableDefinition) :=
  orElseValue (between .parenOpen .parenClose (many1 variableDefinition)) []

/-- The rest of an operation, behind its keyword. -/
def operationOfKind (kind : OperationKind) (p : Position) : Reader OperationDefinition := do
  let n ← optional name
  let vars ← variableDefinitions
  let dirs ← directives
  return ⟨kind, n, vars, dirs, ← selectionSet, p, false⟩

/-- The rest of a fragment, behind its keyword. -/
def fragmentDefinition (p : Position) : Reader FragmentDefinition := do
  let n ← name
  discard (keyword "on")
  let t ← name
  let dirs ← directives
  return ⟨n, t, dirs, ← selectionSet, p⟩

/-- A query that is only a selection set. -/
def shorthandQuery : Reader OperationDefinition := do
  let s ← selectionSet
  return ⟨.query, none, [], [], s, s.position, true⟩

/-- An operation or a fragment that begins with its keyword. -/
def keywordDefinition : Reader ExecutableDefinition := do
  let (word, p) ← nameAt
  if word = "query" then .operation <$> operationOfKind .query p
  else if word = "mutation" then .operation <$> operationOfKind .mutation p
  else if word = "subscription" then .operation <$> operationOfKind .subscription p
  else if word = "fragment" then .fragment <$> fragmentDefinition p
  else failure

/-- A whole executable document. -/
def executableDocument : Reader ExecutableDocument := do
  let definitions ← many1 ((.operation <$> shorthandQuery) <|> keywordDefinition)
  finished
  return definitions

end Reader

/-- Reads a source text as an executable document. -/
def ExecutableDocument.ofSource? (source : String) : Option ExecutableDocument := do
  let tokens ← Token.scan source
  (Reader.executableDocument.run tokens).map Prod.fst

end QueryPlan.Syntax
