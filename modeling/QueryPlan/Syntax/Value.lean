import QueryPlan.Decimal.Shortest
import QueryPlan.Syntax.StringLiteral

/-!
# Values

Arguments, defaults and directive arguments are values: literals, variables, lists and input
objects. `display` writes a value in GraphQL notation. A string that is itself an argument is
written by `render` on one line; a string inside a list or an object is displayed, which may
take several lines.
-/

set_option autoImplicit false

namespace QueryPlan.Syntax

open QueryPlan.Decimal

/-- A value as it is written, variables unresolved. The fields of an object are sorted by
name, and each name occurs once. -/
inductive Value
  | var (name : String)
  | int (n : Int)
  | float (x : Binary64)
  | string (s : String)
  | boolean (b : Bool)
  | null
  | enum (name : String)
  | list (items : List Value)
  | object (fields : List (String × Value))
deriving Repr, Inhabited

/-- Named values in source order: the arguments of a field or of a directive. -/
abbrev Arguments := List (String × Value)

namespace Value

/-- Adds a field to sorted fields; it replaces a field of the same name. -/
def insertField (name : String) (value : Value) : List (String × Value) → List (String × Value)
  | [] => [(name, value)]
  | f :: fs =>
    if name < f.1 then (name, value) :: f :: fs
    else if name = f.1 then (name, value) :: fs
    else f :: insertField name value fs

/-- The object with these fields: of equal names the last one counts. -/
def ofFields (fields : List (String × Value)) : Value :=
  object (fields.foldl (fun fs f => insertField f.1 f.2 fs) [])

mutual

/-- A value in its notation inside other values. -/
def display : Value → String
  | var name => "$" ++ name
  | int n => toString n
  | float x => x.render
  | string s => String.ofList (StringLiteral.display s.toList)
  | boolean true => "true"
  | boolean false => "false"
  | null => "null"
  | enum name => name
  | list items => "[" ++ ", ".intercalate (displayItems items) ++ "]"
  | object fields => "\x7b" ++ ", ".intercalate (displayFields fields) ++ "\x7d"

/-- The notations of the items of a list. -/
def displayItems : List Value → List String
  | [] => []
  | v :: vs => v.display :: displayItems vs

/-- The notations of the fields of an object. -/
def displayFields : List (String × Value) → List String
  | [] => []
  | (name, v) :: fs => (name ++ ": " ++ v.display) :: displayFields fs

end

/-- A value in its notation as an argument or a default. -/
def render : Value → String
  | string s => String.ofList (StringLiteral.quote s.toList)
  | v => v.display

end Value

/-- The first argument of that name. -/
def Arguments.get? (arguments : Arguments) (name : String) : Option Value :=
  (arguments.find? fun a => a.1 = name).map Prod.snd

/-- The list of arguments in parentheses, or nothing where there are none. -/
def Arguments.render (arguments : Arguments) : String :=
  if arguments.isEmpty then ""
  else "(" ++ ", ".intercalate (arguments.map fun a => a.1 ++ ": " ++ a.2.render) ++ ")"

end QueryPlan.Syntax
