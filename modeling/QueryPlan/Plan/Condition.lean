import QueryPlan.Document.Node

/-!
# Conditions on variables

A `Condition` tests one variable, a `Clause` is a conjunction of conditions, and an
`IncludeCondition` is a disjunction of clauses: a selection is part of a response when one of
the paths that lead to it is open.

The conditions of a clause are sorted and pairwise distinct, so that clauses with the same
conditions are equal in whatever order the directives were written; a clause never asks of a
variable to be both true and false. A disjunction keeps no clause that another one makes
redundant.
-/

set_option autoImplicit false

namespace QueryPlan

/-- The variables of a request, as far as conditions need them: the boolean a variable is bound
to, if it is bound to one. -/
abbrev Variables := String → Option Bool

/-! ## Conditions -/

/-- A test of one variable. -/
structure Condition where
  /-- Whether the variable has to be false. -/
  negated : Bool
  var : String
deriving DecidableEq, Repr

namespace Condition

/-- Holds when the variable is true. -/
def includeIf (v : String) : Condition := ⟨false, v⟩

/-- Holds when the variable is false. -/
def skipIf (v : String) : Condition := ⟨true, v⟩

/-- Whether a condition holds. A variable that is bound to no boolean reads as false. -/
def isSatisfied (c : Condition) (vars : Variables) : Bool :=
  (vars c.var).getD false != c.negated

/-- Conditions are ordered by polarity, and then by variable. -/
def lt (a b : Condition) : Bool :=
  if a.negated = b.negated then a.var < b.var else b.negated

/-- A condition as messages show it. -/
def text (c : Condition) : String := (if c.negated then "!$" else "$") ++ c.var

end Condition

/-! ## Clauses -/

/-- A conjunction of conditions: the directives along one path to a selection. -/
structure Clause where
  conditions : List Condition
deriving DecidableEq, Repr

namespace Clause

/-- The clause without conditions, which always holds. -/
def always : Clause := ⟨[]⟩

def isAlways (c : Clause) : Bool := c.conditions.isEmpty

/-- Inserts a condition into sorted ones, unless it is there. -/
def insertSorted (x : Condition) : List Condition → List Condition
  | [] => [x]
  | y :: ys =>
    if x.lt y then x :: y :: ys
    else if x = y then y :: ys
    else y :: insertSorted x ys

/-- Whether a condition asks the opposite of one of the clause. -/
def contradicts (c : Clause) (x : Condition) : Bool :=
  c.conditions.any fun y => y.var = x.var && y.negated != x.negated

/-- The clause with one more condition; none if it asks the opposite of one that is there. -/
def and (c : Clause) (x : Condition) : Option Clause :=
  if c.contradicts x then none else some ⟨insertSorted x c.conditions⟩

/-- Whether a directive includes (`false`) or skips (`true`) what it stands on. -/
def polarity? (d : DirectiveNode) : Option Bool :=
  if d.name = "include" then some false
  else if d.name = "skip" then some true
  else none

/-- The clause with what one directive asks. A literal either asks nothing or cannot be met,
and an argument that is neither a literal nor a variable asks nothing. -/
def andDirective (c : Clause) (d : DirectiveNode) : Option Clause :=
  match polarity? d with
  | none => some c
  | some negated =>
    match d.arguments.get? "if" with
    | some (.boolean b) => if b = negated then none else some c
    | some (.var v) => c.and ⟨negated, v⟩
    | _ => some c

/-- The clause with what all directives ask; none if that can never hold. -/
def andDirectives (c : Clause) (ds : List DirectiveNode) : Option Clause :=
  ds.foldlM andDirective c

/-- Whether all conditions of a clause hold. -/
def isSatisfied (c : Clause) (vars : Variables) : Bool :=
  c.conditions.all (·.isSatisfied vars)

/-- Whether every condition of `a` is one of `b`: then `b` holds only where `a` does. -/
def subsumes (a b : Clause) : Bool := a.conditions.all (· ∈ b.conditions)

/-- A clause as messages show it. -/
def text (c : Clause) : String :=
  if c.conditions.isEmpty then "true" else " && ".intercalate (c.conditions.map Condition.text)

/-- Clauses are ordered like the lists of their conditions. -/
def compareConditions : List Condition → List Condition → Ordering
  | [], [] => .eq
  | [], _ :: _ => .lt
  | _ :: _, [] => .gt
  | x :: xs, y :: ys =>
    if x.lt y then .lt else if y.lt x then .gt else compareConditions xs ys

def compare (a b : Clause) : Ordering := compareConditions a.conditions b.conditions

end Clause

/-! ## Include conditions -/

/-- When a selection is part of the response: always, or when one of some clauses holds. -/
inductive IncludeCondition
  | always
  /-- Without clauses the selection is never part of a response. -/
  | anyOf (clauses : List Clause)
deriving DecidableEq, Repr

namespace IncludeCondition

def never : IncludeCondition := anyOf []

/-- Adds the clause of one more path. One path without conditions makes the selection
unconditional; a clause that an existing one subsumes adds nothing, and the clauses that the
new one subsumes go. -/
def addClause (i : IncludeCondition) (c : Clause) : IncludeCondition :=
  match i with
  | always => always
  | anyOf clauses =>
    if c.isAlways then always
    else if clauses.any (·.subsumes c) then anyOf clauses
    else anyOf ((clauses.filter fun e => !c.subsumes e) ++ [c])

/-- The condition of a single path. -/
def ofClause (c : Clause) : IncludeCondition := never.addClause c

/-- The clauses of a disjunction; none where the selection is unconditional. -/
def clauses : IncludeCondition → List Clause
  | always => []
  | anyOf cs => cs

def isConditional : IncludeCondition → Bool
  | always => false
  | anyOf _ => true

/-- Whether the selection is part of the response for some variables. -/
def isIncluded (i : IncludeCondition) (vars : Variables) : Bool :=
  match i with
  | always => true
  | anyOf cs => cs.any (·.isSatisfied vars)

/-- Whether no variables could include the selection. -/
def isNever : IncludeCondition → Bool
  | always => false
  | anyOf cs => cs.isEmpty

end IncludeCondition

end QueryPlan
