import QueryPlan.Plan.Basic

/-!
# Printed plans

A plan is printed in a notation close to that of the operation it came from: below every
selection stand its selection sets, one for each concrete type, and conditions are written as
directives. A printed plan is a list of lines; `Plan.print` ends each of them with a line feed.
-/

set_option autoImplicit false

namespace QueryPlan

open QueryPlan.Syntax (Arguments)

/-! ## Parts of a line -/

/-- A line that is so many levels in. -/
def indented (depth : Nat) (line : String) : String :=
  String.join (List.replicate depth "  ") ++ line

/-- A text as a literal on one line. -/
def quotedText (s : String) : String := String.ofList (Syntax.StringLiteral.quote s.toList)

/-- A condition as the directive that states it, after a space. -/
def Condition.directive (c : Condition) : String :=
  if c.negated then s!" @skip(if: ${c.var})" else s!" @include(if: ${c.var})"

/-- An include condition as directives: none where it always holds, those of its clause if it
has one only, and a made-up directive that lists the clauses otherwise. -/
def IncludeCondition.directives : IncludeCondition → String
  | .always => ""
  | .anyOf [] => " @skip(if: true)"
  | .anyOf [c] => String.join (c.conditions.map Condition.directive)
  | .anyOf cs =>
    " @include(anyOf: [" ++ ", ".intercalate (cs.map fun c => "\"" ++ c.text ++ "\"") ++ "])"

/-- The name of a selection, after its response key where that is another one. -/
def Selection.label (s : Selection) : String :=
  if s.responseKey = s.field.name then s.field.name
  else s.responseKey ++ ": " ++ s.field.name

/-- What is written of a selection before its sub-selections. -/
def Selection.head (s : Selection) : String :=
  s.label ++ Arguments.render s.arguments ++ s.condition.directives ++
    (if s.internal then " @internal" else "")

/-- The arguments of the `@defer` directive of a deferred fragment. -/
def DeferredFragment.deferArguments (ifVariable label : Option String) : String :=
  let parts := ifVariable.toList.map (fun v => "if: $" ++ v) ++
    label.toList.map fun l => "label: " ++ quotedText l
  if parts.isEmpty then "" else "(" ++ ", ".intercalate parts ++ ")"

/-- What is written of a deferred fragment before its selections. -/
def DeferredFragment.head {σ : Type} (d : DeferredFragment σ) : String :=
  let type :=
    match d.typeCondition with
    | none => ""
    | some t => " on " ++ t
  "..." ++ type ++ d.condition.directives ++ " @defer" ++ deferArguments d.ifVariable d.label

/-- A variable with its type, and its default if there is one. -/
def VariableNode.text (v : VariableNode) : String :=
  let default :=
    match v.default with
    | none => ""
    | some d => " = " ++ d.render
  "$" ++ v.name ++ ": " ++ v.type.text ++ default

/-- The line that an operation starts with, without its brace. -/
def OperationNode.head (o : OperationNode) : String :=
  let name :=
    match o.name with
    | none => ""
    | some n => " " ++ n
  let definitions :=
    if o.variableDefinitions.isEmpty then ""
    else "(" ++ ", ".intercalate (o.variableDefinitions.map VariableNode.text) ++ ")"
  o.kind.keyword ++ name ++ definitions

/-! ## Lines -/

/-- A block: the head of what it belongs to, the lines inside, and the closing brace. -/
def block (depth : Nat) (head : String) (inside : List String) : List String :=
  indented depth (head ++ " \x7b") :: inside ++ [indented depth "\x7d"]

/-- A selection with its sub-selections; `children` gives the lines for a key. -/
def Selection.lines (children : SelectionSetId → List String) (depth : Nat) (s : Selection) :
    List String :=
  match s.selectionSet with
  | none => [indented depth s.head]
  | some key => block depth s.head (children key)

mutual

/-- The selections of a selection set, and then its deferred fragments. -/
def SelectionSet.lines (children : Nat → SelectionSetId → List String) (depth : Nat) :
    SelectionSet → List String
  | ⟨_, selections, deferred⟩ =>
    selections.flatMap (Selection.lines (children (depth + 1)) depth) ++
      deferredLines children depth deferred

/-- Deferred fragments, one after another. -/
def deferredLines (children : Nat → SelectionSetId → List String) (depth : Nat) :
    List (DeferredFragment SelectionSet) → List String
  | [] => []
  | d :: ds => deferredFragmentLines children depth d ++ deferredLines children depth ds

/-- A deferred fragment with its selections. -/
def deferredFragmentLines (children : Nat → SelectionSetId → List String) (depth : Nat) :
    DeferredFragment SelectionSet → List String
  | ⟨source, label, ifVariable, typeCondition, condition, set⟩ =>
    block depth
      (DeferredFragment.head ⟨source, label, ifVariable, typeCondition, condition, set⟩)
      (set.lines children (depth + 1))

end

namespace Plan

/-- The selection sets for a key, one block for each concrete type; `fuel` bounds how many keys
lead to one another. A key that nothing was compiled for has no lines. -/
def variantLines (p : Plan) : Nat → Nat → SelectionSetId → List String
  | 0, _, _ => []
  | fuel + 1, depth, id =>
    match p.variants.get? id with
    | none => []
    | some v =>
      v.sets.entries.flatMap fun (type, set) =>
        block depth ("... on " ++ type) (set.lines (p.variantLines fuel) (depth + 1))

/-- The lines of a plan. Every key belongs to one selection, so no more keys lead to one another
than there are. -/
def lines (p : Plan) : List String :=
  block 0 p.operation.head (p.variantLines p.variants.size 1 p.root)

/-- A plan as a text. -/
def print (p : Plan) : String := String.join (p.lines.map (· ++ "\n"))

end Plan

end QueryPlan
