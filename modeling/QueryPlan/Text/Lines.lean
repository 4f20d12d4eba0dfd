import QueryPlan.Text.Unicode

/-!
# Lines of a text

Cutting a text at its line feeds, and trimming blanks from its end. A carriage return right
before a line feed belongs to the line break.
-/

set_option autoImplicit false

namespace QueryPlan.Text

/-- The pieces of a text between its line feeds: always one more than there are line feeds. -/
def splitLines : List Char → List (List Char)
  | [] => [[]]
  | c :: cs =>
    if c = '\n' then [] :: splitLines cs
    else
      match splitLines cs with
      | [] => [[c]]
      | l :: ls => (c :: l) :: ls

theorem splitLines_ne_nil (cs : List Char) : splitLines cs ≠ [] := by
  cases cs with
  | nil => simp [splitLines]
  | cons c cs =>
    simp only [splitLines]
    split
    · simp
    · split <;> simp

/-- A line without the carriage return it ends with. -/
def dropReturn (l : List Char) : List Char :=
  if l.getLast? = some '\r' then l.dropLast else l

/-- The lines of a text in which a line feed ends a line: no line follows the last one. -/
def lines (cs : List Char) : List (List Char) :=
  match (splitLines cs).reverse with
  | [] => []
  | [] :: rest => (rest.map dropReturn).reverse
  | last :: rest => (last :: rest.map dropReturn).reverse

/-- Removes all blanks at the end. -/
def trimEnd (cs : List Char) : List Char :=
  (cs.reverse.dropWhile isBlank).reverse

end QueryPlan.Text
