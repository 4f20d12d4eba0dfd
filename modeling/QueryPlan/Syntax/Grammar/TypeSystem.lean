import QueryPlan.Syntax.TypeSystem
import QueryPlan.Syntax.Grammar.Executable

/-!
# The grammar of schema documents

`SchemaDocument.ofSource?` reads a source text as type definitions, extensions, root types and
directive definitions. Directives on schema elements are read and dropped: they have no bearing
on what a schema means here, except that an extension counts them as something it adds.
-/

set_option autoImplicit false

namespace QueryPlan.Syntax

namespace Reader

/-- A description, with its position. -/
def description : Reader (Option (String × Position)) := optional stringAt

/-- Where an element starts: at its description if it has one, else at its name. -/
def elementPosition (desc : Option (String × Position)) (named : Position) : Position :=
  match desc with
  | none => named
  | some d => d.2

/-- An argument definition or an input field. -/
def inputValue : Reader InputValueDefinition := do
  let desc ← description
  let (n, p) ← nameAt
  discard (punctuator .colon)
  let t ← typeRef
  let d ← defaultValue
  discard directives
  return ⟨n, t, d, desc.map Prod.fst, elementPosition desc p⟩

/-- The argument definitions of a field or a directive. -/
def argumentDefinitions : Reader (List InputValueDefinition) :=
  orElseValue (between .parenOpen .parenClose (many1 inputValue)) []

/-- A field of an object or an interface. -/
def fieldDefinition : Reader FieldDefinition := do
  let desc ← description
  let (n, p) ← nameAt
  let args ← argumentDefinitions
  discard (punctuator .colon)
  let t ← typeRef
  discard directives
  return ⟨n, t, args, desc.map Prod.fst, elementPosition desc p⟩

/-- Elements in braces: not none when the braces are there. -/
def body {α : Type} (r : Reader α) : Reader (List α) :=
  orElseValue (between .braceOpen .braceClose (many1 r)) []

/-- The interfaces that a type implements, joined by ampersands. -/
def implementedInterfaces : Reader (List String) :=
  orElseValue (do
    discard (keyword "implements")
    discard (optional (punctuator .ampersand))
    separated .ampersand name) []

/-- The members of a union, joined by bars. -/
def unionMembers : Reader (List String) :=
  orElseValue (do
    discard (punctuator .equals)
    discard (optional (punctuator .pipe))
    separated .pipe name) []

/-- A value of an enum. -/
def enumValue : Reader String := do
  discard description
  let n ← name
  discard directives
  return n

/-- The body of a declaration behind its name, for the kind of type that the keyword gives;
and whether directives come with it. -/
def typeBody (word : String) : Reader (TypeBody × Bool) := do
  if word = "scalar" then
    let dirs ← directives
    return (.scalar, !dirs.isEmpty)
  else if word = "type" then
    let interfaces ← implementedInterfaces
    let dirs ← directives
    return (.object interfaces (← body fieldDefinition), !dirs.isEmpty)
  else if word = "interface" then
    let interfaces ← implementedInterfaces
    let dirs ← directives
    return (.interface interfaces (← body fieldDefinition), !dirs.isEmpty)
  else if word = "union" then
    let dirs ← directives
    return (.union (← unionMembers), !dirs.isEmpty)
  else if word = "enum" then
    let dirs ← directives
    return (.enum (← body enumValue), !dirs.isEmpty)
  else if word = "input" then
    let dirs ← directives
    return (.inputObject (← body inputValue), !dirs.isEmpty)
  else failure

/-- The rest of a type declaration, from its name on; and whether it has directives. -/
def typeDeclaration (word : String) (p : Position) (desc : Option String) :
    Reader (TypeDeclaration × Bool) := do
  let n ← name
  let (b, directed) ← typeBody word
  return (⟨n, desc, b, p⟩, directed)

/-- Whether a body adds anything to the type it extends. The interfaces of an interface do not
count. -/
def addsSomething : TypeBody → Bool
  | .scalar => false
  | .object interfaces fields => !interfaces.isEmpty || !fields.isEmpty
  | .interface _ fields => !fields.isEmpty
  | .union members => !members.isEmpty
  | .enum values => !values.isEmpty
  | .inputObject fields => !fields.isEmpty

/-- An extension, behind the word `extend`. It must add something. -/
def extension : Reader SchemaDefinition := do
  let (word, p) ← nameAt
  let (declaration, directed) ← typeDeclaration word p none
  if directed || addsSomething declaration.body then return .extension declaration
  else failure

/-- Names a root operation type; a kind of operation that is named already is refused. -/
def addRoot (roots : RootTypes) (kind type : String) : Option RootTypes :=
  match kind, roots with
  | "query", ⟨none, m, s, p⟩ => some ⟨some type, m, s, p⟩
  | "mutation", ⟨q, none, s, p⟩ => some ⟨q, some type, s, p⟩
  | "subscription", ⟨q, m, none, p⟩ => some ⟨q, m, some type, p⟩
  | _, _ => none

/-- One root operation type: its kind and its name. -/
def rootType : Reader (String × String) := do
  let kind ← name
  discard (punctuator .colon)
  return (kind, ← name)

/-- A block of root types, behind the word `schema`. -/
def rootTypes (p : Position) : Reader SchemaDefinition := do
  discard directives
  let named ← between .braceOpen .braceClose (many rootType)
  match named.foldlM (fun roots r => addRoot roots r.1 r.2) ⟨none, none, none, p⟩ with
  | some roots => return .roots roots
  | none => failure

/-- The places where a directive may be declared to stand. -/
def directiveLocations : List String := [
  "QUERY", "MUTATION", "SUBSCRIPTION", "FIELD", "FRAGMENT_DEFINITION", "FRAGMENT_SPREAD",
  "INLINE_FRAGMENT", "VARIABLE_DEFINITION", "SCHEMA", "SCALAR", "OBJECT", "FIELD_DEFINITION",
  "ARGUMENT_DEFINITION", "INTERFACE", "UNION", "ENUM", "ENUM_VALUE", "INPUT_OBJECT",
  "INPUT_FIELD_DEFINITION"]

def directiveLocation : Reader String := do
  let n ← name
  if n ∈ directiveLocations then return n else failure

/-- A directive definition, behind the word `directive`. -/
def directiveDefinition : Reader SchemaDefinition := do
  discard (punctuator .atSign)
  let n ← name
  discard argumentDefinitions
  discard (optional (keyword "repeatable"))
  discard (keyword "on")
  discard (optional (punctuator .pipe))
  discard (separated .pipe directiveLocation)
  return .directive n

/-- One definition. Only type and directive definitions may have a description. -/
def schemaDefinition : Reader SchemaDefinition := do
  let desc ← description
  let (word, p) ← nameAt
  if word = "directive" then directiveDefinition
  else if word = "schema" && desc.isNone then rootTypes p
  else if word = "extend" && desc.isNone then extension
  else return .type (← typeDeclaration word p (desc.map Prod.fst)).1

/-- A whole schema document. -/
def schemaDocument : Reader SchemaDocument := do
  let definitions ← many1 schemaDefinition
  finished
  return definitions

end Reader

/-- Reads a source text as a schema document. -/
def SchemaDocument.ofSource? (source : String) : Option SchemaDocument := do
  let tokens ← Token.scan source
  (Reader.schemaDocument.run tokens).map Prod.fst

end QueryPlan.Syntax
