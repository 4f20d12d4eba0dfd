import Mathlib.Tactic
import QueryPlan.Syntax.Grammar.Executable

/-!
# Texts that spell tokens

`Spells` says that a text is scanned as tokens with given lexemes, whatever their positions are. It
is shown from the end of a text to its front: a blank adds nothing, a punctuator adds a lexeme, and
so does a name if what is behind it does not go on with the name. `Directive.readAll?` reads the
directives of such a text.
-/

set_option autoImplicit false

namespace QueryPlan.Syntax

/-- A name of the grammar: a letter or an underscore, and then letters, digits and underscores. -/
def isName (s : String) : Bool :=
  match s.toList with
  | [] => false
  | c :: cs => Token.isNameStart c && cs.all Token.isNameChar

theorem exists_cons_of_isName {s : String} (h : isName s = true) :
    ∃ c cs, s.toList = c :: cs ∧ Token.isNameStart c = true ∧
      ∀ x ∈ cs, Token.isNameChar x = true := by
  unfold isName at h
  split at h
  · cases h
  · next c cs heq =>
      rw [Bool.and_eq_true, List.all_eq_true] at h
      exact ⟨c, cs, heq, h.1, h.2⟩

theorem isNameChar_of_isName {s : String} (h : isName s = true) :
    ∀ x ∈ s.toList, Token.isNameChar x = true := by
  obtain ⟨c, cs, heq, hc, hcs⟩ := exists_cons_of_isName h
  rw [heq]
  refine List.forall_mem_cons.2 ⟨?_, hcs⟩
  rw [Token.isNameChar, hc, Bool.true_or]

namespace Token

/-! ## One lexeme -/

/-- The characters that are a punctuator each. -/
def punctuators : List Char :=
  ['!', '$', ':', '=', '@', '|', '&', '(', ')', '[', ']', '\x7b', '\x7d']

/-- The characters that are skipped before a lexeme, and the one that begins a comment. -/
def skipped : List Char := [' ', ',', '\t', '\n', '\r', '\uFEFF', '#']

theorem ofChar?_mem {c : Char} {q : Punctuator} (h : Punctuator.ofChar? c = some q) :
    c ∈ punctuators := by
  unfold Punctuator.ofChar? at h
  split at h
  all_goals first
    | decide
    | cases h

/-- No other kind of lexeme begins like a name. -/
theorem ne_of_isNameStart {c d : Char} (h : isNameStart c = true) (hd : isNameStart d = false) :
    c ≠ d := by
  rintro rfl
  rw [h] at hd
  cases hd

theorem ofChar?_of_isNameStart {c : Char} (h : isNameStart c = true) :
    Punctuator.ofChar? c = none := by
  cases hq : Punctuator.ofChar? c with
  | none => rfl
  | some q =>
      have hall : punctuators.all (!isNameStart ·) = true := by decide
      have hc : isNameStart c = false := by simpa using List.all_eq_true.1 hall c (ofChar?_mem hq)
      exact absurd rfl (ne_of_isNameStart h hc)

theorem lexeme?_punctuator {c : Char} {q : Punctuator} (h : Punctuator.ofChar? c = some q)
    (p : Position) (cs : List Char) :
    lexeme? p (c :: cs) = some (.punctuator q, p.advance 1, cs) := by
  rw [lexeme?, h]
  · rintro _ rfl
    exact absurd (ofChar?_mem h) (by decide)
  · rintro _ rfl
    exact absurd (ofChar?_mem h) (by decide)

theorem lexeme?_name {s : String} (h : isName s = true) {d : Char} (hd : isNameChar d = false)
    (p : Position) (cs : List Char) :
    ∃ q, lexeme? p (s.toList ++ d :: cs) = some (.name s, q, d :: cs) := by
  obtain ⟨c, tail, heq, hc, htail⟩ := exists_cons_of_isName h
  have htake : (tail ++ d :: cs).takeWhile isNameChar = tail := by
    rw [List.takeWhile_append_of_pos htail, List.takeWhile_cons_of_neg (by simp [hd]),
      List.append_nil]
  have hdrop : (tail ++ d :: cs).dropWhile isNameChar = d :: cs := by
    rw [List.dropWhile_append_of_pos htail, List.dropWhile_cons_of_neg (by simp [hd])]
  have hword : String.ofList (c :: tail) = s := by rw [← heq, String.ofList_toList]
  refine ⟨p.advance (c :: tail).length, ?_⟩
  rw [heq, List.cons_append, lexeme?, ofChar?_of_isNameStart hc]
  · simp only [hc, if_true, htake, hdrop, hword]
  · exact fun _ hdot => absurd hdot (ne_of_isNameStart hc (by decide))
  · exact fun _ hmark => absurd hmark (ne_of_isNameStart hc (by decide))

/-- What a lexeme begins with is not skipped. -/
theorem skipIgnored_cons {c : Char} (h : c ∉ skipped) (p : Position) (cs : List Char) :
    skipIgnored false p (c :: cs) = (p, c :: cs) := by
  simp only [skipped, List.mem_cons, List.not_mem_nil, or_false, not_or] at h
  simp [skipIgnored, h]

/-! ## Whole texts -/

/-- With so many brackets open the text is scanned as tokens with these lexemes. -/
def Spells (depth : Nat) (cs : List Char) (ls : List Lexeme) : Prop :=
  ∀ p fuel, cs.length < fuel →
    ∃ ts, scanFrom fuel depth p cs = some ts ∧ ts.map (·.lexeme) = ls

variable {depth depth' : Nat} {cs : List Char} {ls : List Lexeme}

theorem spells_nil : Spells depth [] [] := by
  intro p fuel hfuel
  obtain ⟨fuel, rfl⟩ := Nat.exists_eq_add_of_lt hfuel
  exact ⟨[], rfl, rfl⟩

theorem Spells.blank (h : Spells depth cs ls) : Spells depth (' ' :: cs) ls := by
  intro p fuel hfuel
  rw [List.length_cons] at hfuel
  obtain ⟨ts, hts, hls⟩ := h (p.advance 1) fuel (by omega)
  refine ⟨ts, ?_, hls⟩
  have hskip : skipIgnored false p (' ' :: cs) = skipIgnored false (p.advance 1) cs := by
    simp [skipIgnored]
  cases fuel with
  | zero => cases hts
  | succ fuel =>
      rw [scanFrom] at hts ⊢
      rw [hskip]
      exact hts

/-- One more lexeme at the front. -/
theorem Spells.lexeme {c : Char} {front : List Char} {l : Lexeme} (h : Spells depth' cs ls)
    (hc : c ∉ skipped)
    (hl : ∀ p, ∃ q, lexeme? p (c :: front ++ cs) = some (l, q, cs))
    (hdepth : nesting? depth l = some depth') : Spells depth (c :: front ++ cs) (l :: ls) := by
  intro p fuel hfuel
  obtain ⟨q, hq⟩ := hl p
  cases fuel with
  | zero => exact absurd hfuel (Nat.not_lt_zero _)
  | succ fuel =>
      rw [List.length_append, List.length_cons] at hfuel
      obtain ⟨ts, hts, hls⟩ := h q fuel (by omega)
      refine ⟨⟨l, p⟩ :: ts, ?_, by rw [List.map_cons, hls]⟩
      rw [scanFrom, List.cons_append, skipIgnored_cons hc]
      simp only [← List.cons_append, hq, hdepth, hts, Option.bind_eq_bind, Option.bind_some]
      rfl

theorem Spells.punctuator (h : Spells depth' cs ls) {c : Char} {q : Punctuator}
    (hq : Punctuator.ofChar? c = some q) (hdepth : nesting? depth (.punctuator q) = some depth') :
    Spells depth (c :: cs) (.punctuator q :: ls) := by
  show Spells depth (c :: [] ++ cs) _
  refine h.lexeme (fun hmem => ?_) (fun p => ?_) hdepth
  · have hall : skipped.all (fun x => (Punctuator.ofChar? x).isNone) = true := by decide
    rw [Option.isNone_iff_eq_none.1 (List.all_eq_true.1 hall c hmem)] at hq
    cases hq
  · exact ⟨_, lexeme?_punctuator hq p cs⟩

theorem Spells.name {d : Char} (h : Spells depth (d :: cs) ls) {s : String}
    (hs : isName s = true) (hd : isNameChar d = false) :
    Spells depth (s.toList ++ d :: cs) (.name s :: ls) := by
  have hlexeme := lexeme?_name hs hd
  obtain ⟨c, tail, heq, hc, -⟩ := exists_cons_of_isName hs
  simp only [heq] at hlexeme ⊢
  refine h.lexeme (fun hmem => ?_) (fun p => hlexeme p cs) rfl
  have hall : skipped.all (!isNameStart ·) = true := by decide
  have hstart : isNameStart c = false := by simpa using List.all_eq_true.1 hall c hmem
  exact absurd rfl (ne_of_isNameStart hc hstart)

theorem scan_of_spells {source : String} (h : Spells 0 source.toList ls) :
    ∃ ts, scan source = some ts ∧ ts.map (·.lexeme) = ls :=
  h .start _ (Nat.lt_succ_self _)

/-- Tokens are their lexemes with some positions. -/
theorem exists_positions {ts : List Token} (h : ts.map (·.lexeme) = ls) :
    ∃ ps : List Position, ps.length = ls.length ∧ ts = List.zipWith Token.mk ls ps := by
  subst h
  refine ⟨ts.map (·.position), by rw [List.length_map, List.length_map], ?_⟩
  induction ts with
  | nil => rfl
  | cons t ts ih => exact congrArg (t :: ·) ih

end Token

namespace Reader

/-- Tokens from which a reader takes one item after another, as long as there are tokens. -/
theorem manyAlong_run_cons {α : Type} {r : Reader α} {x : α} {xs : List α}
    {ts mid rest along : List Token} (hx : r.run ts = some (x, mid))
    (hxs : (manyAlong r along).run mid = some (xs, rest)) (t : Token) :
    (manyAlong r (t :: along)).run ts = some (x :: xs, rest) := by
  have hround : (do return (← r) :: (← manyAlong r along) : Reader (List α)).run ts =
      some (x :: xs, rest) := by
    simp [StateT.run_bind, hx, hxs]
  have hor : (manyAlong r (t :: along)).run ts =
      ((do return (← r) :: (← manyAlong r along) : Reader (List α)).run ts <|>
        (pure [] : Reader (List α)).run ts) := rfl
  rw [hor, hround]
  rfl

end Reader

/-! ## Directives -/

namespace Directive

open Token (Spells)

/-- The lexemes of a directive with one argument. -/
def lexemes (name argument : String) (value : List Lexeme) : List Lexeme :=
  .punctuator .atSign :: .name name :: .punctuator .parenOpen :: .name argument ::
    .punctuator .colon :: value ++ [.punctuator .parenClose]

theorem spells {name argument : String} {value : List Char} {valueLexemes : List Lexeme}
    (hname : isName name = true) (hargument : isName argument = true)
    (hvalue : ∀ cs ls, Spells 1 (')' :: cs) ls → Spells 1 (value ++ ')' :: cs) (valueLexemes ++ ls))
    {cs : List Char} {ls : List Lexeme} (h : Spells 0 cs ls) :
    Spells 0 (' ' :: '@' :: (name.toList ++ '(' :: (argument.toList ++ ':' :: ' ' ::
      (value ++ ')' :: cs)))) (lexemes name argument valueLexemes ++ ls) := by
  have hclosed : Spells 1 (')' :: cs) (.punctuator .parenClose :: ls) := h.punctuator rfl rfl
  have hinside : Spells 1 (':' :: ' ' :: (value ++ ')' :: cs)) _ :=
    (hvalue _ _ hclosed).blank.punctuator rfl rfl
  have hopen : Spells 0 ('(' :: _) _ := (hinside.name hargument rfl).punctuator rfl rfl
  have hall : Spells 0 (' ' :: '@' :: _) _ := ((hopen.name hname rfl).punctuator rfl rfl).blank
  simpa [lexemes] using hall

/-- From tokens with these lexemes a directive is read, and the tokens behind them are left. -/
def Reads (ls : List Lexeme) (d : String × Arguments) : Prop :=
  ∀ ts rest, ts.map (·.lexeme) = ls →
    ∃ p, Reader.directive.run (ts ++ rest) = some (⟨d.1, d.2, p⟩, rest)

theorem reads_name (name argument value : String) :
    Reads (lexemes name argument [.name value]) (name, [(argument, Reader.namedValue value)]) := by
  intro ts rest h
  obtain ⟨ps, hlength, rfl⟩ := Token.exists_positions h
  match ps, hlength with
  | [p, _, _, _, _, _, _], _ => exact ⟨p, rfl⟩

theorem reads_variable (name argument value : String) :
    Reads (lexemes name argument [.punctuator .dollar, .name value])
      (name, [(argument, .var value)]) := by
  intro ts rest h
  obtain ⟨ps, hlength, rfl⟩ := Token.exists_positions h
  match ps, hlength with
  | [p, _, _, _, _, _, _, _], _ => exact ⟨p, rfl⟩

/-- No directive is read from nothing. -/
theorem Reads.length_pos {ls : List Lexeme} {d : String × Arguments} (h : Reads ls d) :
    1 ≤ ls.length := by
  rcases ls with _ | ⟨l, ls⟩
  · obtain ⟨p, hp⟩ := h [] [] rfl
    cases hp
  · exact Nat.succ_pos _

variable {α : Type} {lexemesOf : α → List Lexeme} {directiveOf : α → String × Arguments}
  {xs : List α}

theorem manyAlong_reads (hreads : ∀ x ∈ xs, Reads (lexemesOf x) (directiveOf x))
    {ts along : List Token} (hts : ts.map (·.lexeme) = xs.flatMap lexemesOf)
    (halong : xs.length ≤ along.length) :
    ∃ ds, (Reader.manyAlong Reader.directive along).run ts = some (ds, []) ∧
      ds.map (fun d => (d.name, d.arguments)) = xs.map directiveOf := by
  induction xs generalizing ts along with
  | nil =>
      obtain rfl := List.map_eq_nil_iff.1 hts
      -- there is no token to read a directive from
      cases along with
      | nil => exact ⟨[], rfl, rfl⟩
      | cons _ _ => exact ⟨[], rfl, rfl⟩
  | cons x xs ih =>
      rw [List.forall_mem_cons] at hreads
      rw [List.flatMap_cons] at hts
      obtain ⟨front, back, rfl, hfront, hback⟩ := List.map_eq_append_iff.1 hts
      obtain ⟨p, hp⟩ := hreads.1 front back hfront
      cases along with
      | nil => exact absurd halong (Nat.not_succ_le_zero _)
      | cons t along =>
          obtain ⟨ds, hds, hmap⟩ := ih hreads.2 hback (Nat.le_of_succ_le_succ halong)
          refine ⟨_, Reader.manyAlong_run_cons hp hds t, ?_⟩
          rw [List.map_cons, hmap, List.map_cons]

/-- The directives that a text is read as, if it is nothing but directives. -/
def listOfSource? (source : String) : Option (List Directive) := do
  let tokens ← Token.scan source
  let (ds, rest) ← Reader.directives.run tokens
  if rest.isEmpty then return ds else failure

/-- A text that spells directives is read as these. -/
theorem listOfSource?_spells (hreads : ∀ x ∈ xs, Reads (lexemesOf x) (directiveOf x))
    {source : String} (h : Spells 0 source.toList (xs.flatMap lexemesOf)) :
    ∃ ds, listOfSource? source = some ds ∧
      ds.map (fun d => (d.name, d.arguments)) = xs.map directiveOf := by
  obtain ⟨ts, hscan, hts⟩ := Token.scan_of_spells h
  have hlength : xs.length ≤ ts.length := by
    have hsum : (xs.map fun x => (lexemesOf x).length).length ≤
        (xs.map fun x => (lexemesOf x).length).sum := by
      refine List.length_le_sum_of_one_le _ fun n hn => ?_
      obtain ⟨x, hx, rfl⟩ := List.mem_map.1 hn
      exact (hreads x hx).length_pos
    have hlexemes := congrArg List.length hts
    rw [List.length_map, List.length_flatMap] at hlexemes
    rwa [List.length_map, ← hlexemes] at hsum
  obtain ⟨ds, hds, hmap⟩ := manyAlong_reads hreads hts hlength
  have hmany : Reader.directives.run ts = some (ds, []) := hds
  refine ⟨ds, ?_, hmap⟩
  rw [listOfSource?, hscan, Option.bind_eq_bind, Option.bind_some, hmany]
  rfl

end Directive

end QueryPlan.Syntax
