import QueryPlan.Text.Lines

/-!
# String literals

Reading: `unescape` turns the body of a quoted literal into the text it stands for, and
`blockText` does so for the body of a block literal, which has no escapes except for the
triple quotation mark, but whose indentation and outer blank lines are not part of the text.

Writing: there are two ways. `quote` escapes every control character and so keeps a literal on
one line. `display` is for strings inside lists and objects: there a text with line feeds is
written as a block literal.
-/

set_option autoImplicit false

namespace QueryPlan.Syntax.StringLiteral

open QueryPlan.Text

/-! ## Reading quoted literals -/

/-- What a backslash and the character after it stand for. -/
def simpleEscape? (c : Char) : Option Char :=
  if c = '\x22' || c = '\\' || c = '/' then some c
  else if c = 'b' then some '\x10'
  else if c = 'f' then some '\x0c'
  else if c = 'n' then some '\n'
  else if c = 'r' then some '\r'
  else if c = 't' then some '\t'
  else none

/-- The value of a digit in base 16. -/
def hexDigit? (c : Char) : Option Nat :=
  if '0' ≤ c && c ≤ '9' then some (c.toNat - '0'.toNat)
  else if 'a' ≤ c && c ≤ 'f' then some (c.toNat - 'a'.toNat + 10)
  else if 'A' ≤ c && c ≤ 'F' then some (c.toNat - 'A'.toNat + 10)
  else none

/-- The number that some digits in base 16 write, after those already read. -/
def hexNumber? (acc : Nat) : List Char → Option Nat
  | [] => some acc
  | c :: cs => (hexDigit? c).bind fun d => hexNumber? (acc * 16 + d) cs

/-- The character that a `u` escape names by four characters: digits in base 16, of which the
first may be a plus sign instead. Surrogates name no character. -/
def unicodeEscape? (a b c d : Char) : Option Char :=
  (hexNumber? 0 (if a = '+' then [b, c, d] else [a, b, c, d])).bind charOfCode?

/-- The text that the body of a quoted literal stands for. -/
def unescape : List Char → Option (List Char)
  | [] => some []
  | '\\' :: 'u' :: a :: b :: c :: d :: rest =>
    (unicodeEscape? a b c d).bind fun ch => (unescape rest).map (ch :: ·)
  | '\\' :: e :: rest =>
    (simpleEscape? e).bind fun ch => (unescape rest).map (ch :: ·)
  | c :: rest => if c = '\\' then none else (unescape rest).map (c :: ·)

/-- Splits what follows an opening quotation mark into the body of the literal and the rest
behind its closing mark. A body keeps its escapes and holds no line feed. -/
def splitQuoted : List Char → Option (List Char × List Char)
  | [] => none
  | c :: cs =>
    if c = '\x22' then some ([], cs)
    else if c = '\n' then none
    else if c = '\\' then
      match cs with
      | [] => none
      | e :: cs =>
        if e = '\n' then none
        else (splitQuoted cs).map fun r => (c :: e :: r.1, r.2)
    else (splitQuoted cs).map fun r => (c :: r.1, r.2)

/-! ## Reading block literals -/

/-- Splits what follows an opening triple quotation mark into the body of the literal and the
rest behind the closing mark. A backslash keeps the triple mark after it in the body. -/
def splitBlock : List Char → Option (List Char × List Char)
  | '\\' :: '\x22' :: '\x22' :: '\x22' :: cs =>
    (splitBlock cs).map fun r => ('\\' :: '\x22' :: '\x22' :: '\x22' :: r.1, r.2)
  | '\x22' :: '\x22' :: '\x22' :: cs => some ([], cs)
  | c :: cs => (splitBlock cs).map fun r => (c :: r.1, r.2)
  | [] => none

/-- The bytes that encode some characters. -/
def byteCount (cs : List Char) : Nat := cs.foldr (fun c n => c.utf8Size + n) 0

/-- How many bytes of blanks a line starts with. -/
def indentation (l : List Char) : Nat := byteCount (l.takeWhile isBlank)

def isBlankLine (l : List Char) : Bool := l.all isBlank

/-- Removes characters from the front until so many bytes are gone. -/
def dropBytes : Nat → List Char → List Char
  | _, [] => []
  | 0, cs => cs
  | n + 1, c :: cs => dropBytes (n + 1 - c.utf8Size) cs

/-- A line without the common indentation; a shorter line stays as it is. -/
def dedent (indent : Nat) (l : List Char) : List Char :=
  if indent ≤ byteCount l then dropBytes indent l else l

/-- The indentation that all lines but the first share, blank lines aside. -/
def commonIndentation (ls : List (List Char)) : Nat :=
  (((ls.drop 1).filter fun l => !isBlankLine l).map indentation).min?.getD 0

/-- The lines without the blank ones at both ends. -/
def trimBlankLines (ls : List (List Char)) : List (List Char) :=
  ((ls.dropWhile isBlankLine).reverse.dropWhile isBlankLine).reverse

/-- Undoes the one escape of block literals. -/
def unescapeBlock : List Char → List Char
  | '\\' :: '\x22' :: '\x22' :: '\x22' :: cs =>
    '\x22' :: '\x22' :: '\x22' :: unescapeBlock cs
  | c :: cs => c :: unescapeBlock cs
  | [] => []

/-- The text that the body of a block literal stands for. -/
def blockText (body : List Char) : List Char :=
  let ls := lines body
  let dedented :=
    match ls with
    | [] => []
    | first :: rest => first :: rest.map (dedent (commonIndentation ls))
  unescapeBlock (List.intercalate ['\n'] (trimBlankLines dedented))

/-! ## Writing -/

/-- A digit in base 16, upper case. -/
def upperHexDigit (n : Nat) : Char :=
  if n < 10 then Char.ofNat ('0'.toNat + n) else Char.ofNat ('A'.toNat + (n - 10))

/-- The four digits of a `u` escape. -/
def hexQuad (n : Nat) : List Char :=
  [upperHexDigit (n / 4096 % 16), upperHexDigit (n / 256 % 16), upperHexDigit (n / 16 % 16),
    upperHexDigit (n % 16)]

/-- How one character is written in a quoted literal. -/
def quoteChar (c : Char) : List Char :=
  if c = '\x22' then ['\\', '\x22']
  else if c = '\\' then ['\\', '\\']
  else if c = '\n' then ['\\', 'n']
  else if c = '\r' then ['\\', 'r']
  else if c = '\t' then ['\\', 't']
  else if isControl c then '\\' :: 'u' :: hexQuad c.toNat
  else [c]

/-- A text as a quoted literal on one line. -/
def quote (cs : List Char) : List Char := '\x22' :: cs.flatMap quoteChar ++ ['\x22']

/-- Characters of the basic plane from the space on. -/
def isPlain (c : Char) : Bool := 0x20 ≤ c.toNat && c.toNat ≤ 0xffff

/-- Whether a text is written as a block literal: it has line feeds, and all else in it is
plain or a tab or a carriage return. -/
def fitsBlock (cs : List Char) : Bool :=
  cs.any (· = '\n') && cs.all fun c => c = '\n' || c = '\r' || c = '\t' || isPlain c

/-- The decimal digits of a code point, at least four. -/
def decimalQuad (n : Nat) : List Char :=
  let ds := Nat.toDigits 10 n
  List.replicate (4 - ds.length) '0' ++ ds

/-- How one character is written in a displayed literal. Characters that are not plain are
given by their code point in base 10. -/
def displayChar (c : Char) : List Char :=
  if c = '\r' then ['\\', 'r']
  else if c = '\n' then ['\\', 'n']
  else if c = '\t' then ['\\', 't']
  else if c = '\x22' then ['\\', '\x22']
  else if c = '\\' then ['\\', '\\']
  else if isPlain c then [c]
  else '\\' :: 'u' :: decimalQuad c.toNat

/-- Writes a backslash before every triple quotation mark. -/
def escapeBlock : List Char → List Char
  | '\x22' :: '\x22' :: '\x22' :: cs =>
    '\\' :: '\x22' :: '\x22' :: '\x22' :: escapeBlock cs
  | c :: cs => c :: escapeBlock cs
  | [] => []

def tripleQuote : List Char := ['\x22', '\x22', '\x22']

/-- One line of a block literal with the line break that ends it. -/
def blockLine (l : List Char) : List Char :=
  if isBlankLine l then ['\n'] else ' ' :: ' ' :: escapeBlock l ++ ['\n']

/-- A text as a literal inside a list or an object. -/
def display (cs : List Char) : List Char :=
  if fitsBlock cs then
    tripleQuote ++ '\n' :: (lines cs).flatMap blockLine ++ tripleQuote
  else '\x22' :: cs.flatMap displayChar ++ ['\x22']

end QueryPlan.Syntax.StringLiteral
