import QueryPlan.Syntax.Token
import QueryPlan.Syntax.TypeRef
import QueryPlan.Syntax.Value

/-!
# Reading tokens

A `Reader` takes tokens from the front of a list and answers with a value, or fails. Both
grammars decide every choice on the next token, so a reader that fails after some tokens has
met a malformed text: going back and trying the alternative then fails as well.

The readers for types, values and argument lists are shared by both grammars. What nests does
so in brackets, and the scan has bounded their depth; the same bound limits the recursion.
-/

set_option autoImplicit false

namespace QueryPlan.Syntax

/-- A reader of tokens from the front of a list. -/
abbrev Reader := StateT (List Token) Option

namespace Reader

variable {α : Type}

/-- Any next token. -/
def token : Reader Token := do
  match ← get with
  | [] => failure
  | t :: ts =>
    set ts
    return t

/-- A given punctuator; answers with its position. -/
def punctuator (p : Punctuator) : Reader Position := do
  let t ← token
  if t.lexeme = .punctuator p then return t.position else failure

/-- Any name, with its position. -/
def nameAt : Reader (String × Position) := do
  let t ← token
  match t.lexeme with
  | .name s => return (s, t.position)
  | _ => failure

def name : Reader String := do return (← nameAt).1

/-- A given name, used as a keyword; answers with its position. -/
def keyword (word : String) : Reader Position := do
  let (s, p) ← nameAt
  if s = word then return p else failure

/-- A string, with its position. -/
def stringAt : Reader (String × Position) := do
  let t ← token
  match t.lexeme with
  | .string s => return (s, t.position)
  | _ => failure

/-- The position of the next token. -/
def position : Reader Position := do
  match ← get with
  | [] => failure
  | t :: _ => return t.position

/-- Nothing is left. -/
def finished : Reader Unit := do
  match ← get with
  | [] => return ()
  | _ :: _ => failure

/-- What `r` reads, if it succeeds. -/
def optional (r : Reader α) : Reader (Option α) :=
  (some <$> r) <|> pure none

/-- What `r` reads as often as it succeeds, but at most once for each item of a list. -/
def manyAlong (r : Reader α) : List Token → Reader (List α)
  | [] => pure []
  | _ :: ts => (do return (← r) :: (← manyAlong r ts)) <|> pure []

/-- What `r` reads as often as it succeeds. It takes a token each time, so there are not more
rounds than tokens. -/
def many (r : Reader α) : Reader (List α) := do
  manyAlong r (← get)

/-- What `r` reads as often as it succeeds, but at least once. -/
def many1 (r : Reader α) : Reader (List α) := do
  return (← r) :: (← many r)

/-- What `r` reads, with separators between. -/
def separated (separator : Punctuator) (r : Reader α) : Reader (List α) := do
  let first ← r
  let rest ← many (do discard (punctuator separator); r)
  return first :: rest

/-- What `r` reads between two brackets. -/
def between (opening closing : Punctuator) (r : Reader α) : Reader α := do
  discard (punctuator opening)
  let a ← r
  discard (punctuator closing)
  return a

/-- What `r` reads, or a default value. -/
def orElseValue (r : Reader α) (a : α) : Reader α := r <|> pure a

/-! ## Types and values -/

/-- Deeper than brackets can nest. -/
def depthLimit : Nat := Token.maxNesting + 1

/-- A type reference that nests less than `n` deep. -/
def typeRefBelow : Nat → Reader TypeRef
  | 0 => failure
  | n + 1 => do
    let base ←
      (TypeRef.named <$> name) <|>
        (TypeRef.list <$> between .bracketOpen .bracketClose (typeRefBelow n))
    match ← optional (punctuator .bang) with
    | none => return base
    | some _ => return .nonNull base

def typeRef : Reader TypeRef := typeRefBelow depthLimit

/-- The value that a name stands for on its own. -/
def namedValue (s : String) : Value :=
  if s = "true" then .boolean true
  else if s = "false" then .boolean false
  else if s = "null" then .null
  else .enum s

/-- A value that nests less than `n` deep; a constant one holds no variables. -/
def valueBelow (constant : Bool) : Nat → Reader Value
  | 0 => failure
  | n + 1 => do
    let t ← token
    match t.lexeme with
    | .int i => return .int i
    | .float x => return .float x
    | .string s => return .string s
    | .name s => return namedValue s
    | .punctuator .dollar => if constant then failure else return .var (← name)
    | .punctuator .bracketOpen =>
      let items ← many (valueBelow constant n)
      discard (punctuator .bracketClose)
      return .list items
    | .punctuator .braceOpen =>
      let fields ← many do
        let key ← name
        discard (punctuator .colon)
        return (key, ← valueBelow constant n)
      discard (punctuator .braceClose)
      return Value.ofFields fields
    | .punctuator _ => failure

/-- A value, in which variables may occur. -/
def value : Reader Value := valueBelow false depthLimit

/-- A default value. -/
def defaultValue : Reader (Option Value) := optional do
  discard (punctuator .equals)
  valueBelow true depthLimit

/-- A list of arguments, which is not empty when it is there. -/
def arguments : Reader Arguments :=
  orElseValue (between .parenOpen .parenClose (many1 do
    let key ← name
    discard (punctuator .colon)
    return (key, ← value))) []

end Reader

end QueryPlan.Syntax
