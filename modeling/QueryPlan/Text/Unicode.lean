/-!
# Character classes

The Unicode properties that text rules of this library refer to: control characters
(general category `Cc`) and blanks (property `White_Space`).
-/

set_option autoImplicit false

namespace QueryPlan.Text

/-- The character written with this code, for codes that stand for one. -/
def charOfCode? (n : Nat) : Option Char :=
  if h : n.isValidChar then some (Char.ofNatAux n h) else none

/-- Control characters: the C0 set, delete, and the C1 set. -/
def isControl (c : Char) : Bool :=
  c.toNat < 0x20 || (0x7f ≤ c.toNat && c.toNat < 0xa0)

/-- Blank characters, which indent a line or surround a text. -/
def isBlank (c : Char) : Bool :=
  (0x09 ≤ c.toNat && c.toNat ≤ 0x0d) ||
  (0x2000 ≤ c.toNat && c.toNat ≤ 0x200a) ||
  c.toNat ∈ [0x20, 0x85, 0xa0, 0x1680, 0x2028, 0x2029, 0x202f, 0x205f, 0x3000]

end QueryPlan.Text
