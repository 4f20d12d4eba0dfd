import QueryPlan.Decimal.Binary64
import QueryPlan.Syntax.Position
import QueryPlan.Syntax.StringLiteral

/-!
# Tokens

`Token.scan` cuts a source text into tokens: punctuators, names, numbers and strings, each with
the position of its first character. Literals are read right here, so a malformed number or a
bad escape makes the scan fail. What lies between tokens is dropped, but counts for positions.
Brackets may nest at most `maxNesting` deep.
-/

set_option autoImplicit false

namespace QueryPlan.Syntax

open QueryPlan.Text QueryPlan.Decimal

inductive Punctuator
  | bang | dollar | colon | equals | atSign | pipe | ampersand | ellipsis
  | parenOpen | parenClose | bracketOpen | bracketClose | braceOpen | braceClose
deriving DecidableEq, Repr

namespace Punctuator

/-- The punctuators that are one character. -/
def ofChar? (c : Char) : Option Punctuator :=
  match c with
  | '!' => some bang
  | '$' => some dollar
  | ':' => some colon
  | '=' => some equals
  | '@' => some atSign
  | '|' => some pipe
  | '&' => some ampersand
  | '(' => some parenOpen
  | ')' => some parenClose
  | '[' => some bracketOpen
  | ']' => some bracketClose
  | '\x7b' => some braceOpen
  | '\x7d' => some braceClose
  | _ => none

/-- Whether a bracket opens here. -/
def isOpening (p : Punctuator) : Bool := p = parenOpen || p = bracketOpen || p = braceOpen

/-- Whether a bracket closes here. -/
def isClosing (p : Punctuator) : Bool := p = parenClose || p = bracketClose || p = braceClose

end Punctuator

/-- What a token stands for. -/
inductive Lexeme
  | punctuator (p : Punctuator)
  | name (s : String)
  | int (n : Int)
  | float (x : Binary64)
  | string (s : String)
deriving DecidableEq, Repr

structure Token where
  lexeme : Lexeme
  position : Position
deriving DecidableEq, Repr

namespace Token

/-- How many brackets may be open at once. -/
def maxNesting : Nat := 50

/-! ## Between tokens -/

/-- Skips blanks, commas and comments; the flag tells whether a comment is open. A comment ends
with its line break, a carriage return being one here; elsewhere a carriage return takes no
room. -/
def skipIgnored : Bool → Position → List Char → Position × List Char
  | _, p, [] => (p, [])
  | true, p, c :: cs =>
    if c = '\n' || c = '\r' then skipIgnored false p.nextLine cs else skipIgnored true p cs
  | false, p, c :: cs =>
    if c = ' ' || c = ',' then skipIgnored false (p.advance 1) cs
    else if c = '\t' then skipIgnored false (p.advance 8) cs
    else if c = '\n' then skipIgnored false p.nextLine cs
    else if c = '\r' || c = '\uFEFF' then skipIgnored false p cs
    else if c = '#' then skipIgnored true p cs
    else (p, c :: cs)

/-! ## Names -/

def isNameStart (c : Char) : Bool :=
  c = '_' || ('a' ≤ c && c ≤ 'z') || ('A' ≤ c && c ≤ 'Z')

def isNameChar (c : Char) : Bool := isNameStart c || ('0' ≤ c && c ≤ '9')

/-! ## Numbers -/

def isDigit (c : Char) : Bool := '0' ≤ c && c ≤ '9'

/-- What a number runs up to: a blank, a comma, a comment or a punctuator. -/
def endsNumber (c : Char) : Bool :=
  c ∈ ['#', ',', ' ', '\t', '\r', '\n'] || (Punctuator.ofChar? c).isSome

/-- The number that decimal digits write. -/
def digitsValue (cs : List Char) : Nat :=
  cs.foldl (fun n c => n * 10 + (c.toNat - '0'.toNat)) 0

/-- The sign and the digits of an integer: no leading zeros, at least one digit. -/
def integerPart? (cs : List Char) : Option (Bool × List Char) :=
  let (negative, ds) :=
    match cs with
    | '-' :: ds => (true, ds)
    | ds => (false, ds)
  match ds with
  | [] => none
  | ['0'] => some (negative, ds)
  | '0' :: _ => none
  | _ => if ds.all isDigit then some (negative, ds) else none

/-- Splits at the last character that satisfies `p`; that character itself is dropped. -/
def splitLast (p : Char → Bool) (cs : List Char) : List Char × Option (List Char) :=
  let tail := (cs.reverse.takeWhile fun c => !p c).reverse
  match cs.length - tail.length with
  | 0 => (cs, none)
  | n + 1 => (cs.take n, some tail)

/-- The exponent of a float. Without a sign its first digit lies from 1 to 8. -/
def exponent? (cs : List Char) : Option Int :=
  match cs with
  | [] => none
  | c :: ds =>
    if c = '+' || c = '-' then
      if ds.isEmpty || !ds.all isDigit then none
      else some (if c = '-' then -(digitsValue ds : Int) else digitsValue ds)
    else if '1' ≤ c && c ≤ '8' && ds.all isDigit then some (digitsValue cs)
    else none

/-- The digits behind the point of a float, and its exponent. -/
def fraction? (point : Option (List Char)) : Option (List Char) :=
  match point with
  | none => some []
  | some ds => if ds.isEmpty || !ds.all isDigit then none else some ds

/-- A number with a fraction or an exponent. -/
def float? (cs : List Char) : Option Binary64 := do
  let (mantissa, exponentPart) := splitLast (fun c => c = 'e' || c = 'E') cs
  let exponent ← match exponentPart with
    | none => some 0
    | some e => exponent? e
  let (whole, point) := splitLast (· = '.') mantissa
  let (negative, digits) ← integerPart? whole
  let decimals ← fraction? point
  return Binary64.ofDecimal negative (digitsValue (digits ++ decimals))
    (exponent - decimals.length)

/-- The first integer that is too large for 64 bits. -/
def intBound : Int := 9223372036854775808

/-- An integer of 64 bits. -/
def int? (cs : List Char) : Option Int := do
  let (negative, digits) ← integerPart? cs
  let n : Int := if negative then -(digitsValue digits : Int) else digitsValue digits
  if -intBound ≤ n && n < intBound then some n else none

/-- A run of characters as a number. -/
def number? (cs : List Char) : Option Lexeme :=
  if cs.any fun c => c = '.' || c = 'e' || c = 'E' then (float? cs).map .float
  else (int? cs).map .int

/-! ## Tokens -/

/-- The lexeme at the front of a text, the position behind it, and the rest of the text. -/
def lexeme? (p : Position) : List Char → Option (Lexeme × Position × List Char)
  | [] => none
  | '.' :: '.' :: '.' :: cs => some (.punctuator .ellipsis, p.advance 3, cs)
  | '\x22' :: '\x22' :: '\x22' :: cs =>
    (StringLiteral.splitBlock cs).map fun (body, rest) =>
      (.string (String.ofList (StringLiteral.blockText body)),
        ((p.advance 3).after body).advance 3, rest)
  | c :: cs =>
    match Punctuator.ofChar? c with
    | some q => some (.punctuator q, p.advance 1, cs)
    | none =>
      if isNameStart c then
        let word := c :: cs.takeWhile isNameChar
        some (.name (String.ofList word), p.advance word.length, cs.dropWhile isNameChar)
      else if c = '-' || isDigit c then
        let run := c :: cs.takeWhile fun c => !endsNumber c
        (number? run).map fun l =>
          (l, p.advance run.length, cs.dropWhile fun c => !endsNumber c)
      else if c = '\x22' then
        (StringLiteral.splitQuoted cs).bind fun (body, rest) =>
          (StringLiteral.unescape body).map fun s =>
            (.string (String.ofList s), p.advance (body.length + 2), rest)
      else none

/-- The number of open brackets after a lexeme, unless they nest too deep. -/
def nesting? (depth : Nat) : Lexeme → Option Nat
  | .punctuator q =>
    if q.isOpening then (if depth < maxNesting then some (depth + 1) else none)
    else if q.isClosing then some (depth - 1)
    else some depth
  | _ => some depth

/-- Scans at most `fuel` tokens, with `depth` brackets open before the first. -/
def scanFrom : Nat → Nat → Position → List Char → Option (List Token)
  | 0, _, _, _ => none
  | fuel + 1, depth, p, cs =>
    match skipIgnored false p cs with
    | (_, []) => some []
    | (p, cs) => do
      let (l, q, rest) ← lexeme? p cs
      let depth ← nesting? depth l
      let more ← scanFrom fuel depth q rest
      return ⟨l, p⟩ :: more

/-- The tokens of a source text. Every token takes a character, so the length of the text
bounds how many there are. -/
def scan (source : String) : Option (List Token) :=
  let cs := source.toList
  scanFrom (cs.length + 1) 0 .start cs

end Token

end QueryPlan.Syntax
