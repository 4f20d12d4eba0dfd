/-!
# Positions in a source text

Lines and columns count from one.
-/

set_option autoImplicit false

namespace QueryPlan.Syntax

/-- A place in a source text. -/
structure Position where
  line : Nat
  column : Nat
deriving DecidableEq, Repr, Inhabited

namespace Position

/-- Where a text starts. -/
def start : Position := ⟨1, 1⟩

/-- So many columns further on the same line. -/
def advance (p : Position) (columns : Nat) : Position := { p with column := p.column + columns }

/-- The start of the next line. -/
def nextLine (p : Position) : Position := ⟨p.line + 1, 1⟩

/-- The position after some characters that may hold line breaks: each line feed starts a
line, and every other character takes one column. -/
def after (p : Position) : List Char → Position
  | [] => p
  | c :: cs => if c = '\n' then p.nextLine.after cs else (p.advance 1).after cs

/-- A position as messages show it. -/
def render (p : Position) : String := s!"{p.line}:{p.column}"

end Position

end QueryPlan.Syntax
