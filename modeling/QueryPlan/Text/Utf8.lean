import QueryPlan.Text.Unicode

/-!
# Reading UTF-8

Source files are bytes. `decode` reads them as UTF-8 and otherwise says where the text breaks
off: at a sequence of bytes that no continuation can mend, or at the end of the input inside a
sequence that was well formed so far.
-/

set_option autoImplicit false

namespace QueryPlan.Text

/-- Why bytes are not UTF-8. -/
inductive Utf8Fault
  /-- The `length` bytes from `start` on begin no character. -/
  | invalid (start length : Nat)
  /-- The input ends inside the character that begins at `start`. -/
  | incomplete (start : Nat)
deriving DecidableEq, Repr

namespace Utf8Fault

/-- The text that reports a fault. -/
def message : Utf8Fault → String
  | invalid start length =>
    s!"invalid utf-8 sequence of {length} bytes from index {start}"
  | incomplete start => s!"incomplete utf-8 byte sequence from index {start}"

end Utf8Fault

/-- A byte that continues a character, `10xxxxxx`. -/
def isContinuation (b : UInt8) : Bool := 0x80 ≤ b && b ≤ 0xbf

/-- The six bits a continuation byte carries. -/
def payload (b : UInt8) : Nat := b.toNat % 0x40

/-- Which second bytes a three-byte character admits after its first: neither an overlong
form nor a surrogate. -/
def secondOfThree (first b : UInt8) : Bool :=
  if first = 0xe0 then 0xa0 ≤ b && b ≤ 0xbf
  else if first = 0xed then 0x80 ≤ b && b ≤ 0x9f
  else isContinuation b

/-- Which second bytes a four-byte character admits after its first: neither an overlong form
nor a code point above U+10FFFF. -/
def secondOfFour (first b : UInt8) : Bool :=
  if first = 0xf0 then 0x90 ≤ b && b ≤ 0xbf
  else if first = 0xf4 then 0x80 ≤ b && b ≤ 0x8f
  else isContinuation b

/-- The character of a code point that the byte patterns have already admitted. -/
private def admitted (n : Nat) : Char := (charOfCode? n).getD '\uFFFD'

/-- Reads the characters of some bytes, of which the first has the given index. -/
def decodeFrom : Nat → List UInt8 → Except Utf8Fault (List Char)
  | _, [] => .ok []
  | i, b :: bs =>
    if b < 0x80 then
      (decodeFrom (i + 1) bs).map (admitted b.toNat :: ·)
    else if 0xc2 ≤ b && b ≤ 0xdf then
      match bs with
      | [] => .error (.incomplete i)
      | b₂ :: bs =>
        if isContinuation b₂ then
          (decodeFrom (i + 2) bs).map (admitted (b.toNat % 0x20 * 0x40 + payload b₂) :: ·)
        else .error (.invalid i 1)
    else if 0xe0 ≤ b && b ≤ 0xef then
      match bs with
      | [] => .error (.incomplete i)
      | b₂ :: bs =>
        if secondOfThree b b₂ then
          match bs with
          | [] => .error (.incomplete i)
          | b₃ :: bs =>
            if isContinuation b₃ then
              (decodeFrom (i + 3) bs).map
                (admitted ((b.toNat % 0x10 * 0x40 + payload b₂) * 0x40 + payload b₃) :: ·)
            else .error (.invalid i 2)
        else .error (.invalid i 1)
    else if 0xf0 ≤ b && b ≤ 0xf4 then
      match bs with
      | [] => .error (.incomplete i)
      | b₂ :: bs =>
        if secondOfFour b b₂ then
          match bs with
          | [] => .error (.incomplete i)
          | b₃ :: bs =>
            if isContinuation b₃ then
              match bs with
              | [] => .error (.incomplete i)
              | b₄ :: bs =>
                if isContinuation b₄ then
                  (decodeFrom (i + 4) bs).map
                    (admitted (((b.toNat % 0x08 * 0x40 + payload b₂) * 0x40 + payload b₃) * 0x40
                      + payload b₄) :: ·)
                else .error (.invalid i 3)
            else .error (.invalid i 2)
        else .error (.invalid i 1)
    else .error (.invalid i 1)

/-- Reads bytes as UTF-8. -/
def decode (bytes : List UInt8) : Except Utf8Fault String :=
  (decodeFrom 0 bytes).map String.ofList

end QueryPlan.Text
