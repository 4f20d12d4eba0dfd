import QueryPlan.Text.Unshown

/-!
# Quoted texts in messages

A path or a name that a message shows is put in quotation marks, and what would be ambiguous
or invisible in it is escaped.
-/

set_option autoImplicit false

namespace QueryPlan.Text

/-- The digits of a number in base 16, lower case. -/
def hexDigits (n : Nat) : List Char := Nat.toDigits 16 n

/-- An escape that gives the code point in braces. -/
def bracedEscape (c : Char) : List Char :=
  ['\\', 'u', '\x7b'] ++ hexDigits c.toNat ++ ['\x7d']

/-- How one character is written between quotation marks; the flag tells whether apostrophes
are escaped like quotation marks. -/
def quoteChar (apostrophes : Bool) (c : Char) : List Char :=
  if c = '\x00' then ['\\', '0']
  else if c = '\t' then ['\\', 't']
  else if c = '\r' then ['\\', 'r']
  else if c = '\n' then ['\\', 'n']
  else if c = '\x22' || c = '\\' || (apostrophes && c = '\x27') then ['\\', c]
  else if isUnshown c then bracedEscape c
  else [c]

/-- A text in quotation marks, with escapes for whatever does not show as itself. -/
def quotedWith (apostrophes : Bool) (s : String) : String :=
  String.ofList ('\x22' :: s.toList.flatMap (quoteChar apostrophes) ++ ['\x22'])

/-- A name in quotation marks. -/
def quoted (s : String) : String := quotedWith false s

/-- A path in quotation marks. -/
def quotedPath (s : String) : String := quotedWith true s

end QueryPlan.Text
