import QueryPlan.Proofs.Text.Breaks
import QueryPlan.Syntax.Value

/-!
# Line feeds in written values

A quoted literal is on one line whatever it holds, and so are numbers. A string in a list or an
object can be written as a block literal, which has a line feed behind the opening mark and one at
the end of each of its lines: these are the only line feeds in a value whose names hold none
(`Value.breaks_render`).
-/

set_option autoImplicit false

namespace QueryPlan.Syntax

open QueryPlan.Text QueryPlan.Decimal

namespace StringLiteral

theorem upperHexDigit_ne (n : Nat) (h : n < 16) : upperHexDigit n ≠ '\n' := by
  have hall : ∀ m < 16, upperHexDigit m ≠ '\n' := by decide
  exact hall n h

theorem not_mem_hexQuad (n : Nat) : '\n' ∉ hexQuad n := by
  intro h
  have hlt : ∀ m : Nat, m % 16 < 16 := fun m => Nat.mod_lt m (by decide)
  simp only [hexQuad, List.mem_cons, List.not_mem_nil, or_false] at h
  rcases h with h | h | h | h <;> exact upperHexDigit_ne _ (hlt _) h.symm

theorem not_mem_quoteChar (c : Char) : '\n' ∉ quoteChar c := by
  by_cases hc : c = '\n'
  · rw [hc]
    decide
  · unfold quoteChar
    have hquad := not_mem_hexQuad c.toNat
    split_ifs <;> simp [hquad, Ne.symm hc]

/-- Between quotation marks, characters that are each written on one line are on one line. -/
theorem not_mem_enquoted {f : Char → List Char} (hf : ∀ c, '\n' ∉ f c) (cs : List Char) :
    '\n' ∉ '\x22' :: cs.flatMap f ++ ['\x22'] := by
  intro h
  simp only [List.cons_append, List.mem_cons, List.mem_append, List.mem_flatMap,
    List.not_mem_nil, or_false] at h
  rcases h with h | ⟨c, -, h⟩ | h
  · exact absurd h (by decide)
  · exact hf c h
  · exact absurd h (by decide)

/-- A quoted literal is on one line. -/
theorem not_mem_quote (cs : List Char) : '\n' ∉ quote cs := not_mem_enquoted not_mem_quoteChar cs

theorem not_mem_toDigits (n : Nat) : '\n' ∉ Nat.toDigits 10 n := by
  intro h
  have hdigit := Nat.isDigit_of_mem_toDigits (by decide) (by decide) h
  exact absurd hdigit (by decide)

theorem not_mem_decimalQuad (n : Nat) : '\n' ∉ decimalQuad n := by
  intro h
  rcases List.mem_append.1 h with h | h
  · exact absurd (List.eq_of_mem_replicate h) (by decide)
  · exact not_mem_toDigits n h

theorem not_mem_displayChar (c : Char) : '\n' ∉ displayChar c := by
  by_cases hc : c = '\n'
  · rw [hc]
    decide
  · unfold displayChar
    have hquad := not_mem_decimalQuad c.toNat
    split_ifs <;> simp [hquad, Ne.symm hc]

theorem not_mem_escapeBlock {l : List Char} (h : '\n' ∉ l) : '\n' ∉ escapeBlock l := by
  fun_induction escapeBlock l with
  | case1 cs ih => simp_all
  | case2 c cs _ ih => simp_all
  | case3 => simp

/-- A line of a block literal has the line feed at its end and no other. -/
theorem count_blockLine {l : List Char} (h : '\n' ∉ l) : (blockLine l).count '\n' = 1 := by
  by_cases hblank : isBlankLine l = true
  · rw [blockLine, if_pos hblank]
    rfl
  · have hnone : (escapeBlock l).count '\n' = 0 := List.count_eq_zero.2 (not_mem_escapeBlock h)
    rw [blockLine, if_neg hblank]
    simp [List.count_append, hnone]

/-- The line feeds in the notation of a string inside a list or an object. -/
def blockBreaks (cs : List Char) : Nat := if fitsBlock cs then (lines cs).length + 1 else 0

theorem count_display (cs : List Char) : (display cs).count '\n' = blockBreaks cs := by
  by_cases hblock : fitsBlock cs = true
  · have hlines : ((lines cs).flatMap blockLine).count '\n' = (lines cs).length := by
      have hone : ∀ l ∈ lines cs, (List.count '\n' ∘ blockLine) l = 1 := fun l hl =>
        count_blockLine (not_mem_of_mem_lines hl)
      rw [List.count_flatMap, List.map_congr_left hone]
      simp
    have htriple : tripleQuote.count '\n' = 0 := rfl
    rw [display, if_pos hblock, blockBreaks, if_pos hblock, List.count_append, List.count_append,
      List.count_cons_self, hlines, htriple]
    omega
  · rw [display, if_neg hblock, blockBreaks, if_neg hblock, List.count_eq_zero]
    exact not_mem_enquoted not_mem_displayChar cs

end StringLiteral

/-! ## Numbers -/

theorem oneLine_nat (n : Nat) : OneLine (toString n) := by
  show OneLine (String.ofList (Nat.toDigits 10 n))
  exact oneLine_ofList.2 (StringLiteral.not_mem_toDigits n)

theorem oneLine_int (n : Int) : OneLine (toString n) := by
  cases n with
  | ofNat n => exact oneLine_nat n
  | negSucc n =>
      show breaks ("-" ++ toString (n + 1)) = 0
      rw [breaks_append, oneLine_nat (n + 1)]
      rfl

theorem oneLine_positional (k : Nat) (g : Int) : OneLine (positional k g) := by
  have hzero : ∀ n : Nat, '\n' ∉ List.replicate n '0' := fun n h =>
    absurd (List.eq_of_mem_replicate h) (by decide)
  have hdigits := StringLiteral.not_mem_toDigits k
  unfold positional
  by_cases hg : 0 ≤ g
  · rw [if_pos hg]
    refine oneLine_ofList.2 fun h => ?_
    rcases List.mem_append.1 h with h | h
    · exact hdigits h
    · exact hzero _ h
  · rw [if_neg hg]
    refine oneLine_ofList.2 fun h => ?_
    generalize hpadded : List.replicate ((-g).toNat + 1 - (Nat.toDigits 10 k).length) '0' ++
      Nat.toDigits 10 k = padded at h
    have hnone : '\n' ∉ padded := by
      intro hmem
      rw [← hpadded] at hmem
      rcases List.mem_append.1 hmem with hmem | hmem
      · exact hzero _ hmem
      · exact hdigits hmem
    split_ifs at h
    · exact hnone (List.mem_of_mem_take h)
    · rcases List.mem_append.1 h with h | h
      · exact hnone (List.mem_of_mem_take h)
      · rcases List.mem_cons.1 h with h | h
        · exact absurd h (by decide)
        · have hdrop := (List.dropWhile_sublist _).mem (List.mem_reverse.1 h)
          exact hnone (List.mem_of_mem_drop (List.mem_reverse.1 hdrop))

theorem oneLine_float (x : Binary64) : OneLine x.render := by
  cases x with
  | infinite negative => cases negative <;> decide
  | finite negative mantissa exponent =>
      have hunsigned : OneLine (if mantissa = 0 then "0"
          else positional (shortest mantissa exponent).1 (shortest mantissa exponent).2) := by
        split_ifs
        · decide
        · exact oneLine_positional _ _
      cases negative with
      | false => exact hunsigned
      | true =>
          show breaks ("-" ++ _) = 0
          rw [breaks_append, hunsigned]
          rfl

/-! ## Values -/

namespace Value

/-- No name in the value holds a line feed. -/
inductive Legible : Value → Prop
  | var {name : String} (h : OneLine name) : Legible (.var name)
  | int (n : Int) : Legible (.int n)
  | float (x : Binary64) : Legible (.float x)
  | string (s : String) : Legible (.string s)
  | boolean (b : Bool) : Legible (.boolean b)
  | null : Legible .null
  | enum {name : String} (h : OneLine name) : Legible (.enum name)
  | list {items : List Value} (h : ∀ v ∈ items, Legible v) : Legible (.list items)
  | object {fields : List (String × Value)} (names : ∀ f ∈ fields, OneLine f.1)
      (values : ∀ f ∈ fields, Legible f.2) : Legible (.object fields)

mutual

/-- The line feeds in the notation of a value inside other values: those of the block literals
in it. -/
def nestedBreaks : Value → Nat
  | string s => StringLiteral.blockBreaks s.toList
  | list items => itemBreaks items
  | object fields => fieldBreaks fields
  | var _ | int _ | float _ | boolean _ | null | enum _ => 0

/-- The line feeds in the notations of the items of a list. -/
def itemBreaks : List Value → Nat
  | [] => 0
  | v :: vs => v.nestedBreaks + itemBreaks vs

/-- The line feeds in the notations of the fields of an object. -/
def fieldBreaks : List (String × Value) → Nat
  | [] => 0
  | (_, v) :: fs => v.nestedBreaks + fieldBreaks fs

end

/-- The line feeds in the notation of a value as an argument or a default: a string there is
quoted and has none. -/
def blockBreaks : Value → Nat
  | string _ => 0
  | v => v.nestedBreaks

theorem displayItems_eq (vs : List Value) : displayItems vs = vs.map display := by
  induction vs with
  | nil => rfl
  | cons v vs ih => rw [displayItems, ih, List.map_cons]

theorem displayFields_eq (fs : List (String × Value)) :
    displayFields fs = fs.map fun f => f.1 ++ ": " ++ f.2.display := by
  induction fs with
  | nil => rfl
  | cons f fs ih => rw [displayFields, ih, List.map_cons]

theorem itemBreaks_eq (vs : List Value) : itemBreaks vs = (vs.map nestedBreaks).sum := by
  induction vs with
  | nil => rfl
  | cons v vs ih => rw [itemBreaks, ih, List.map_cons, List.sum_cons]

theorem fieldBreaks_eq (fs : List (String × Value)) :
    fieldBreaks fs = (fs.map fun f => f.2.nestedBreaks).sum := by
  induction fs with
  | nil => rfl
  | cons f fs ih => rw [fieldBreaks, ih, List.map_cons, List.sum_cons]

/-- In a value whose names are on one line, the line feeds are those of its block literals. -/
theorem breaks_display {v : Value} (h : v.Legible) : breaks v.display = v.nestedBreaks := by
  induction h with
  | var h =>
      show breaks ("$" ++ _) = 0
      rw [breaks_append, h]
      rfl
  | int n => exact oneLine_int n
  | float x => exact oneLine_float x
  | string s =>
      show breaks (String.ofList (StringLiteral.display s.toList)) = _
      rw [breaks_ofList, StringLiteral.count_display, nestedBreaks]
  | boolean b => cases b <;> rfl
  | null => rfl
  | enum h => exact h
  | @list items _ ih =>
      have hitems : (items.map display).map breaks = items.map nestedBreaks := by
        rw [List.map_map]
        exact List.map_congr_left ih
      show breaks ("[" ++ ", ".intercalate (displayItems items) ++ "]") = itemBreaks items
      rw [breaks_append, breaks_append, breaks_intercalate (by decide), displayItems_eq, hitems,
        itemBreaks_eq]
      show 0 + _ + 0 = _
      omega
  | @object fields names _ ih =>
      have hfields : (fields.map fun f => f.1 ++ ": " ++ f.2.display).map breaks =
          fields.map fun f => f.2.nestedBreaks := by
        rw [List.map_map]
        refine List.map_congr_left fun f hf => ?_
        show breaks (f.1 ++ ": " ++ f.2.display) = f.2.nestedBreaks
        rw [breaks_append, breaks_append, names f hf, ih f hf]
        show 0 + 0 + _ = _
        omega
      show breaks ("\x7b" ++ ", ".intercalate (displayFields fields) ++ "\x7d") =
        fieldBreaks fields
      rw [breaks_append, breaks_append, breaks_intercalate (by decide), displayFields_eq, hfields,
        fieldBreaks_eq]
      show 0 + _ + 0 = _
      omega

theorem breaks_render {v : Value} (h : v.Legible) : breaks v.render = v.blockBreaks := by
  have hdisplay := breaks_display h
  cases v with
  | string s =>
      show breaks (String.ofList (StringLiteral.quote s.toList)) = 0
      exact oneLine_ofList.2 (StringLiteral.not_mem_quote _)
  | _ => exact hdisplay

end Value

namespace Arguments

/-- The names of the arguments and all names in their values are on one line. -/
def Legible (arguments : Arguments) : Prop :=
  ∀ a ∈ arguments, OneLine a.1 ∧ Value.Legible a.2

/-- The line feeds of the block literals in the values. -/
def blockBreaks (arguments : Arguments) : Nat := (arguments.map fun a => a.2.blockBreaks).sum

theorem breaks_render {arguments : Arguments} (h : arguments.Legible) :
    breaks arguments.render = arguments.blockBreaks := by
  cases arguments with
  | nil => rfl
  | cons first rest =>
      generalize hall : first :: rest = arguments at h
      have hvalues : (arguments.map fun a => a.1 ++ ": " ++ a.2.render).map breaks =
          arguments.map fun a => a.2.blockBreaks := by
        rw [List.map_map]
        refine List.map_congr_left fun a ha => ?_
        show breaks (a.1 ++ ": " ++ a.2.render) = a.2.blockBreaks
        rw [breaks_append, breaks_append, (h a ha).1, Value.breaks_render (h a ha).2]
        show 0 + 0 + _ = _
        omega
      have hne : arguments.isEmpty = false := by rw [← hall]; rfl
      rw [render, hne]
      show breaks ("(" ++ ", ".intercalate _ ++ ")") = _
      rw [breaks_append, breaks_append, breaks_intercalate (by decide), hvalues]
      show 0 + _ + 0 = _
      rw [blockBreaks]
      omega

end Arguments

end QueryPlan.Syntax
