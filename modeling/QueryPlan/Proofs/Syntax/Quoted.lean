import Mathlib.Tactic
import QueryPlan.Syntax.Token

/-!
# Quoted literals are read back

A quoted literal can be read by the escapes of GraphQL (`decode?`), and by the scanner, whose `b`
escape stands for another character. Each character is written in one of three ways (`Writes`): by a
backslash and one character, by its code, or as it is. Both readers take each of the three back for
the character, so that a literal gives the text it was written from, and ends where it was closed.
-/

set_option autoImplicit false

namespace QueryPlan.Syntax.StringLiteral

open QueryPlan.Text

/-! ## The notation of GraphQL -/

/-- What a backslash and a character behind it stand for. -/
def escaped? : Char → Option Char
  | '\x22' => some '\x22'
  | '\\' => some '\\'
  | '/' => some '/'
  | 'b' => some '\x08'
  | 'f' => some '\x0c'
  | 'n' => some '\n'
  | 'r' => some '\r'
  | 't' => some '\t'
  | _ => none

/-- The character whose code has these digits in base 16. -/
def coded? (digits : List Char) : Option Char := (hexNumber? 0 digits).bind charOfCode?

/-- Reads a literal behind its opening mark: the text that it stands for, and what is behind its
closing mark. -/
def decodeBody? : List Char → Option (List Char × List Char)
  | [] => none
  | '\x22' :: rest => some ([], rest)
  | '\\' :: 'u' :: a :: b :: c :: d :: rest =>
    (coded? [a, b, c, d]).bind fun x => (decodeBody? rest).map fun r => (x :: r.1, r.2)
  | '\\' :: e :: rest =>
    (escaped? e).bind fun x => (decodeBody? rest).map fun r => (x :: r.1, r.2)
  | c :: rest =>
    if c = '\\' || c = '\n' || c = '\r' then none
    else (decodeBody? rest).map fun r => (c :: r.1, r.2)

/-- Reads a quoted literal at the front of a text. -/
def decode? : List Char → Option (List Char × List Char)
  | '\x22' :: cs => decodeBody? cs
  | _ => none

/-- Whether a character is escaped that comes behind these: an odd number of backslashes stands
right before it. -/
def escapesNext (before : List Char) : Bool :=
  (before.reverse.takeWhile (· = '\\')).length % 2 = 1

/-! ## How a character is written -/

/-- The escapes of one character that are written, each with what it stands for. -/
def shortEscapes : List (Char × Char) :=
  [('\x22', '\x22'), ('\\', '\\'), ('n', '\n'), ('r', '\r'), ('t', '\t')]

/-- All readers take these escapes alike. -/
theorem shortEscapes_read : ∀ x ∈ shortEscapes, escaped? x.1 = some x.2 ∧
    simpleEscape? x.1 = some x.2 ∧ x.1 ≠ 'u' ∧ x.1 ≠ '\n' ∧ isControl x.1 = false := by
  decide

/-- The ways to write a character: by a backslash and one character, by its code, or as it is. -/
inductive Writes : Char → List Char → Prop
  | escape {c e : Char} (h : (e, c) ∈ shortEscapes) : Writes c ['\\', e]
  | code {c : Char} (h : c.toNat < 0x100) : Writes c ('\\' :: 'u' :: hexQuad c.toNat)
  | plain {c : Char} (hmark : c ≠ '\x22') (hslash : c ≠ '\\') (hcontrol : isControl c = false) :
      Writes c [c]

theorem writes_quoteChar (c : Char) : Writes c (quoteChar c) := by
  unfold quoteChar
  split_ifs with hmark hslash hn hr ht hcontrol
  · subst hmark
    exact .escape (by decide)
  · subst hslash
    exact .escape (by decide)
  · subst hn
    exact .escape (by decide)
  · subst hr
    exact .escape (by decide)
  · subst ht
    exact .escape (by decide)
  · refine .code ?_
    simp only [isControl, Bool.or_eq_true, Bool.and_eq_true, decide_eq_true_eq] at hcontrol
    omega
  · exact .plain hmark hslash (by simpa using hcontrol)

/-! ### Codes in base 16 -/

theorem hexDigit?_upperHexDigit {n : Nat} (h : n < 16) : hexDigit? (upperHexDigit n) = some n := by
  have hall : ∀ m < 16, hexDigit? (upperHexDigit m) = some m := by decide
  exact hall n h

theorem coded?_hexQuad {c : Char} (h : c.toNat < 0x10000) : coded? (hexQuad c.toNat) = some c := by
  have hdigit (k : Nat) : hexDigit? (upperHexDigit (k % 16)) = some (k % 16) :=
    hexDigit?_upperHexDigit (Nat.mod_lt k (by decide))
  have hnumber : hexNumber? 0 (hexQuad c.toNat) = some c.toNat := by
    simp only [hexQuad, hexNumber?, hdigit, Option.bind_some, Option.some.injEq]
    omega
  rw [coded?, hnumber, Option.bind_some, charOfCode?]
  exact dif_pos c.valid

/-- A digit is neither a control character nor one that a reader of literals looks out for. -/
theorem upperHexDigit_plain {n : Nat} (h : n < 16) :
    isControl (upperHexDigit n) = false ∧ upperHexDigit n ∉ ['\x22', '\\', '\n', '+'] := by
  have hall : ∀ m < 16, isControl (upperHexDigit m) = false ∧
      upperHexDigit m ∉ ['\x22', '\\', '\n', '+'] := by decide
  exact hall n h

theorem hexQuad_plain {n : Nat} {x : Char} (hx : x ∈ hexQuad n) :
    isControl x = false ∧ x ∉ ['\x22', '\\', '\n', '+'] := by
  have hdigit (k : Nat) := upperHexDigit_plain (Nat.mod_lt k (show 0 < 16 by decide))
  simp only [hexQuad, List.mem_cons, List.not_mem_nil, or_false] at hx
  rcases hx with rfl | rfl | rfl | rfl <;> exact hdigit _

/-! ### What the readers do with one character -/

section Plain

variable {c : Char} (hmark : c ≠ '\x22') (hslash : c ≠ '\\') (hn : c ≠ '\n')
include hmark hslash hn

theorem decodeBody?_plain (hr : c ≠ '\r') (cs : List Char) :
    decodeBody? (c :: cs) = (decodeBody? cs).map fun r => (c :: r.1, r.2) := by
  rw [decodeBody?.eq_5 c cs hmark (fun _ _ _ _ _ heq => absurd heq hslash)
    fun _ _ heq => absurd heq hslash]
  simp [hslash, hn, hr]

omit hmark hn in
theorem unescape_plain (cs : List Char) : unescape (c :: cs) = (unescape cs).map (c :: ·) := by
  rw [unescape.eq_4 c cs (fun _ _ _ _ _ heq => absurd heq hslash)
    fun _ _ heq => absurd heq hslash, if_neg hslash]

theorem splitQuoted_plain (cs : List Char) :
    splitQuoted (c :: cs) = (splitQuoted cs).map fun r => (c :: r.1, r.2) := by
  rw [splitQuoted.eq_def]
  simp [hmark, hslash, hn]

end Plain

theorem splitQuoted_mark (cs : List Char) : splitQuoted ('\x22' :: cs) = some ([], cs) := by
  rw [splitQuoted.eq_def]
  simp

theorem splitQuoted_escape {e : Char} (h : e ≠ '\n') (cs : List Char) :
    splitQuoted ('\\' :: e :: cs) = (splitQuoted cs).map fun r => ('\\' :: e :: r.1, r.2) := by
  simp [splitQuoted, h]

theorem splitQuoted_hexQuad (n : Nat) (cs : List Char) :
    splitQuoted (hexQuad n ++ cs) = (splitQuoted cs).map fun r => (hexQuad n ++ r.1, r.2) := by
  have hplain : ∀ w : List Char, (∀ x ∈ w, x ∉ ['\x22', '\\', '\n', '+']) →
      splitQuoted (w ++ cs) = (splitQuoted cs).map fun r => (w ++ r.1, r.2) := by
    intro w hw
    induction w with
    | nil => simp
    | cons x w ih =>
        rw [List.forall_mem_cons] at hw
        obtain ⟨hx, hw⟩ := hw
        simp only [List.mem_cons, List.not_mem_nil, or_false, not_or] at hx
        rw [List.cons_append, splitQuoted_plain hx.1 hx.2.1 hx.2.2.1, ih hw, Option.map_map]
        rfl
  exact hplain _ fun x hx => (hexQuad_plain hx).2

namespace Writes

variable {c : Char} {w : List Char}

theorem not_control (h : Writes c w) : ∀ x ∈ w, isControl x = false := by
  cases h with
  | escape h =>
      obtain ⟨-, -, -, -, hcontrol⟩ := shortEscapes_read _ h
      exact List.forall_mem_cons.2 ⟨rfl, List.forall_mem_singleton.2 hcontrol⟩
  | code _ =>
      refine List.forall_mem_cons.2 ⟨rfl, List.forall_mem_cons.2 ⟨rfl, fun x hx => ?_⟩⟩
      exact (hexQuad_plain hx).1
  | plain _ _ hcontrol => exact List.forall_mem_singleton.2 hcontrol

/-! ### Each way is read back -/

theorem decodeBody?_append (h : Writes c w) (cs : List Char) :
    decodeBody? (w ++ cs) = (decodeBody? cs).map fun r => (c :: r.1, r.2) := by
  cases h with
  | escape h =>
      obtain ⟨h, -, hu, -⟩ := shortEscapes_read _ h
      rw [List.cons_append, List.cons_append, List.nil_append, decodeBody?, h, Option.bind_some]
      exact fun _ _ _ _ _ heq => absurd heq hu
  | code h =>
      have hcoded := coded?_hexQuad (c := c) (by omega)
      rw [hexQuad] at hcoded ⊢
      simp only [List.cons_append, List.nil_append, decodeBody?, hcoded, Option.bind_some]
  | plain hmark hslash hcontrol =>
      apply decodeBody?_plain hmark hslash
      · exact fun heq => absurd hcontrol (heq ▸ by decide)
      · exact fun heq => absurd hcontrol (heq ▸ by decide)

theorem unescape_append (h : Writes c w) (cs : List Char) :
    unescape (w ++ cs) = (unescape cs).map (c :: ·) := by
  cases h with
  | escape h =>
      obtain ⟨-, h, hu, -⟩ := shortEscapes_read _ h
      rw [List.cons_append, List.cons_append, List.nil_append, unescape, h, Option.bind_some]
      exact fun _ _ _ _ _ heq => absurd heq hu
  | code h =>
      -- the first digit is no plus sign, which the scanner would pass over
      have hplus : upperHexDigit (c.toNat / 4096 % 16) ≠ '+' := by
        have hfirst : upperHexDigit (c.toNat / 4096 % 16) ∈ hexQuad c.toNat := List.mem_cons_self
        exact fun heq => (hexQuad_plain hfirst).2 (heq ▸ by simp)
      have hcoded := coded?_hexQuad (c := c) (by omega)
      rw [hexQuad] at hcoded ⊢
      simp only [List.cons_append, List.nil_append, unescape, unicodeEscape?, if_neg hplus]
      rw [← coded?, hcoded, Option.bind_some]
  | plain _ hslash _ => exact unescape_plain hslash cs

theorem splitQuoted_append (h : Writes c w) (cs : List Char) :
    splitQuoted (w ++ cs) = (splitQuoted cs).map fun r => (w ++ r.1, r.2) := by
  cases h with
  | escape h =>
      obtain ⟨-, -, -, hline, -⟩ := shortEscapes_read _ h
      exact splitQuoted_escape hline cs
  | code _ =>
      rw [List.cons_append, List.cons_append, splitQuoted_escape (by decide), splitQuoted_hexQuad,
        Option.map_map]
      rfl
  | plain hmark hslash hcontrol =>
      exact splitQuoted_plain hmark hslash (fun heq => absurd hcontrol (heq ▸ by decide)) cs

end Writes

/-! ## Backslashes -/

@[simp] theorem escapesNext_nil : escapesNext [] = false := rfl

/-- A backslash escapes what is behind it, unless it is escaped itself. -/
theorem escapesNext_concat (before : List Char) (c : Char) :
    escapesNext (before ++ [c]) = (c = '\\' && !escapesNext before) := by
  unfold escapesNext
  rw [List.reverse_append, List.reverse_singleton, List.singleton_append]
  by_cases hc : c = '\\'
  · rw [List.takeWhile_cons_of_pos (by simpa using hc), List.length_cons]
    simp only [hc, decide_true, Bool.true_and]
    rw [← decide_not, decide_eq_decide]
    omega
  · rw [List.takeWhile_cons_of_neg (by simpa using hc)]
    simp [hc]

/-- Behind `front`, every quotation mark in a text is escaped. -/
def Guarded (front cs : List Char) : Prop :=
  ∀ before after, cs = before ++ '\x22' :: after → escapesNext (front ++ before) = true

theorem guarded_nil (front : List Char) : Guarded front [] := fun _ _ h => by simp at h

theorem Guarded.cons {front cs : List Char} {c : Char}
    (hc : c = '\x22' → escapesNext front = true) (h : Guarded (front ++ [c]) cs) :
    Guarded front (c :: cs) := by
  intro before after heq
  cases before with
  | nil =>
      rw [List.append_nil]
      exact hc (List.cons_eq_cons.1 heq).1
  | cons d before =>
      rw [List.cons_append, List.cons_eq_cons] at heq
      obtain ⟨rfl, heq⟩ := heq
      rw [List.append_cons]
      exact h before after heq

/-- Characters that are no marks may stand anywhere. -/
theorem Guarded.append_plain {front cs w : List Char} (hw : ∀ x ∈ w, x ≠ '\x22')
    (h : Guarded (front ++ w) cs) : Guarded front (w ++ cs) := by
  induction w generalizing front with
  | nil => rwa [List.append_nil] at h
  | cons x w ih =>
      rw [List.forall_mem_cons] at hw
      rw [List.append_cons] at h
      exact .cons (fun heq => absurd heq hw.1) (ih hw.2 h)

theorem escapesNext_append_plain {front w : List Char} (hw : ∀ x ∈ w, x ≠ '\\')
    (h : escapesNext front = false) : escapesNext (front ++ w) = false := by
  induction w generalizing front with
  | nil => rwa [List.append_nil]
  | cons x w ih =>
      rw [List.forall_mem_cons] at hw
      rw [List.append_cons]
      refine ih hw.2 ?_
      simp [escapesNext_concat, hw.1]

namespace Writes

variable {c : Char} {w front : List Char}

/-- Where no backslash is open before a character is written, none is open afterwards. -/
theorem escapesNext_append (h : Writes c w) (hfront : escapesNext front = false) :
    escapesNext (front ++ w) = false := by
  cases h with
  | escape _ =>
      rw [List.append_cons, escapesNext_concat, escapesNext_concat, hfront]
      simp
  | code _ =>
      rw [List.append_cons, List.append_cons]
      refine escapesNext_append_plain (fun x hx heq => ?_) ?_
      · exact (hexQuad_plain hx).2 (heq ▸ by simp)
      · rw [escapesNext_concat]
        rfl
  | plain _ hslash _ => simp [escapesNext_concat, hslash]

/-- The mark that is written for a mark is escaped. -/
theorem guarded_append (h : Writes c w) (hfront : escapesNext front = false) {cs : List Char}
    (hcs : Guarded (front ++ w) cs) : Guarded front (w ++ cs) := by
  cases h with
  | escape _ =>
      refine .cons (by simp) (.cons (fun _ => ?_) ?_)
      · simp [escapesNext_concat, hfront]
      · rwa [List.append_assoc]
  | code _ =>
      refine Guarded.append_plain (fun x hx heq => ?_) hcs
      rcases List.mem_cons.1 hx with rfl | hx
      · exact absurd heq (by decide)
      rcases List.mem_cons.1 hx with rfl | hx
      · exact absurd heq (by decide)
      · exact (hexQuad_plain hx).2 (heq ▸ by simp)
  | plain hmark _ _ =>
      exact Guarded.append_plain (List.forall_mem_singleton.2 hmark) hcs

end Writes

/-! ## Whole literals -/

/-- What is written between the marks. -/
def quotedBody (s : List Char) : List Char := s.flatMap quoteChar

theorem quote_eq (s : List Char) : quote s = '\x22' :: quotedBody s ++ ['\x22'] := rfl

theorem quotedBody_cons (c : Char) (s : List Char) :
    quotedBody (c :: s) = quoteChar c ++ quotedBody s := List.flatMap_cons

theorem isControl_quotedBody {s : List Char} : ∀ x ∈ quotedBody s, isControl x = false := by
  intro x hx
  obtain ⟨c, -, hx⟩ := List.mem_flatMap.1 hx
  exact (writes_quoteChar c).not_control x hx

/-- No mark in a body closes the literal, and the last character does not escape the mark that
does. -/
theorem guarded_quotedBody (s : List Char) {front : List Char} (h : escapesNext front = false) :
    Guarded front (quotedBody s) ∧ escapesNext (front ++ quotedBody s) = false := by
  induction s generalizing front with
  | nil =>
      refine ⟨guarded_nil front, ?_⟩
      rwa [quotedBody, List.flatMap_nil, List.append_nil]
  | cons c s ih =>
      have hc := writes_quoteChar c
      obtain ⟨hguarded, hnext⟩ := ih (hc.escapesNext_append h)
      rw [quotedBody_cons]
      refine ⟨hc.guarded_append h hguarded, ?_⟩
      rwa [← List.append_assoc]

theorem decodeBody?_quotedBody (s rest : List Char) :
    decodeBody? (quotedBody s ++ '\x22' :: rest) = some (s, rest) := by
  induction s with
  | nil => rfl
  | cons c s ih =>
      rw [quotedBody_cons, List.append_assoc, (writes_quoteChar c).decodeBody?_append, ih]
      rfl

theorem splitQuoted_quotedBody (s rest : List Char) :
    splitQuoted (quotedBody s ++ '\x22' :: rest) = some (quotedBody s, rest) := by
  induction s with
  | nil => exact splitQuoted_mark rest
  | cons c s ih =>
      rw [quotedBody_cons, List.append_assoc, (writes_quoteChar c).splitQuoted_append, ih]
      rfl

theorem unescape_quotedBody (s : List Char) : unescape (quotedBody s) = some s := by
  induction s with
  | nil => rfl
  | cons c s ih =>
      rw [quotedBody_cons, (writes_quoteChar c).unescape_append, ih]
      rfl

/-- A literal and what is behind it are told from the text of both. -/
theorem decode?_quote (s rest : List Char) : decode? (quote s ++ rest) = some (s, rest) := by
  rw [quote_eq, List.append_assoc, List.cons_append, decode?]
  exact decodeBody?_quotedBody s rest

theorem quote_injective : Function.Injective quote := by
  intro s t h
  have hs := decode?_quote s []
  rw [h, decode?_quote] at hs
  exact (congrArg Prod.fst (Option.some.inj hs)).symm

/-- A literal does not look like the opening of a block literal, unless it is empty and another
mark follows. -/
theorem quotedBody_not_block {s rest cs : List Char} (h : rest.head? ≠ some '\x22') :
    quotedBody s ++ '\x22' :: rest ≠ '\x22' :: '\x22' :: cs := by
  intro heq
  cases s with
  | nil =>
      obtain rfl : rest = '\x22' :: cs := (List.cons_eq_cons.1 heq).2
      exact h rfl
  | cons c s =>
      -- what is written for a character does not start with a mark
      rw [quotedBody_cons] at heq
      generalize hw : quoteChar c = w at heq
      cases hw ▸ writes_quoteChar c with
      | escape _ => cases heq
      | code _ => cases heq
      | plain hmark _ _ => exact hmark (List.cons_eq_cons.1 heq).1

/-- The scanner reads a literal as a string. -/
theorem lexeme?_quote {s rest : List Char} (h : rest.head? ≠ some '\x22') (p : Position) :
    Token.lexeme? p (quote s ++ rest) =
      some (.string (String.ofList s), p.advance (quote s).length, rest) := by
  have hshape : quote s ++ rest = '\x22' :: (quotedBody s ++ '\x22' :: rest) := by
    rw [quote_eq, List.append_assoc, List.cons_append]
    rfl
  have hlength : (quote s).length = (quotedBody s).length + 2 := by
    rw [quote_eq]
    simp
  have hquoted : Token.lexeme? p ('\x22' :: (quotedBody s ++ '\x22' :: rest)) =
      (splitQuoted (quotedBody s ++ '\x22' :: rest)).bind fun r => (unescape r.1).map fun text =>
        (.string (String.ofList text), p.advance (r.1.length + 2), r.2) := by
    rw [Token.lexeme?]
    · rfl
    · exact fun _ heq => absurd heq (by decide)
    · exact fun _ _ heq => quotedBody_not_block h heq
  rw [hshape, hquoted, splitQuoted_quotedBody, Option.bind_some, unescape_quotedBody,
    Option.map_some, hlength]

/-- **Printed strings decode to what they were written from.** A literal is a body between two
quotation marks. It holds no control character; every mark in the body is escaped, and the mark
behind it is not. By the escapes of GraphQL it gives back the text, and all that is behind its
closing mark is left; the scanner agrees unless two literals stand side by side. No two texts have
the same literal. -/
theorem quote_decodes :
    Function.Injective quote ∧
    ∀ s : List Char, ∃ body : List Char, quote s = '\x22' :: body ++ ['\x22'] ∧
      (∀ c ∈ quote s, isControl c = false) ∧
      (∀ before after, body = before ++ '\x22' :: after → escapesNext before = true) ∧
      escapesNext body = false ∧
      (∀ rest, decode? (quote s ++ rest) = some (s, rest)) ∧
      ∀ rest p, rest.head? ≠ some '\x22' → Token.lexeme? p (quote s ++ rest) =
        some (.string (String.ofList s), p.advance (quote s).length, rest) := by
  refine ⟨quote_injective, fun s => ⟨quotedBody s, quote_eq s, fun c hc => ?_, ?_, ?_,
    decode?_quote s, fun rest p h => lexeme?_quote h p⟩⟩
  · rw [quote_eq, List.cons_append, List.mem_cons, List.mem_append, List.mem_singleton] at hc
    rcases hc with rfl | hc | rfl
    · rfl
    · exact isControl_quotedBody c hc
    · rfl
  · exact (guarded_quotedBody s escapesNext_nil).1
  · exact (guarded_quotedBody s escapesNext_nil).2

/-- A backslash before a mark, a control character with a code beyond those of ASCII, and a
character beyond the basic plane. -/
def awkward : List Char := ['\\', '\x22', '\u0085', '😀']

/-- Three backslashes come before the mark in the literal, which an argument follows. -/
theorem quote_decodes_awkward :
    quote awkward = ['\x22', '\\', '\\', '\\', '\x22', '\\', 'u', '0', '0', '8', '5',
      '😀', '\x22'] ∧
    escapesNext ['\\', '\\', '\\'] = true ∧
    decode? (quote awkward ++ [',', ' ', 'n']) = some (awkward, [',', ' ', 'n']) ∧
    Token.lexeme? .start (quote awkward ++ [',', ' ', 'n']) =
      some (.string (String.ofList awkward), ⟨1, 14⟩, [',', ' ', 'n']) := by
  obtain ⟨-, hall⟩ := quote_decodes
  obtain ⟨body, hbody, -, hescaped, -, hdecode, hscan⟩ := hall awkward
  have hquote : quote awkward = ['\x22', '\\', '\\', '\\', '\x22', '\\', 'u', '0', '0', '8', '5',
      '😀', '\x22'] := by decide
  have heq : body = ['\\', '\\', '\\'] ++ '\x22' :: ['\\', 'u', '0', '0', '8', '5', '😀'] := by
    rw [hquote] at hbody
    exact (List.append_cancel_right (List.cons_eq_cons.1 hbody).2).symm
  exact ⟨hquote, hescaped _ _ heq, hdecode _, hscan _ .start (by decide)⟩

end QueryPlan.Syntax.StringLiteral
