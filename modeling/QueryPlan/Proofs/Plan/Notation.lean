import QueryPlan.Document.Arena
import QueryPlan.Plan.Print
import QueryPlan.Proofs.Plan.Disjunction
import QueryPlan.Proofs.Syntax.Spelling
import QueryPlan.Proofs.Text.Told

/-!
# The notation of conditions

A condition of at most one clause is printed as directives. They can be read from the text, and what
they ask for is that condition again (`IncludeCondition.States`). A condition of several clauses is
printed as one directive that lists the texts of the clauses. Wherever a variable is written, no
name goes on behind it, so that equal texts are texts of equal conditions (`Text.Told`).
-/

set_option autoImplicit false

namespace QueryPlan

open QueryPlan.Syntax

/-! ## Conditions -/

namespace Condition

open Text Token

theorem told_name : Told (BeginsOutside isNameChar) String.toList fun s => isName s = true := by
  intro s t hs ht r r' hr hr' h
  obtain ⟨heq, hrest⟩ := told_of_all isNameChar s.toList t.toList (isNameChar_of_isName hs)
    (isNameChar_of_isName ht) r r' hr hr' h
  exact ⟨String.toList_injective heq, hrest⟩

/-- The name of the directive that states a condition. -/
def keyword (x : Condition) : String := if x.negated then "skip" else "include"

/-- The directive that states a condition: its name and its arguments. -/
def statement (x : Condition) : String × Arguments := (x.keyword, [("if", .var x.var)])

theorem keyword_inj {x y : Condition} (h : x.keyword = y.keyword) : x.negated = y.negated := by
  unfold keyword at h
  cases hx : x.negated <;> cases hy : y.negated <;> simp [hx, hy] at h ⊢

theorem isName_keyword (x : Condition) : isName x.keyword = true := by
  unfold keyword
  split <;> decide

theorem toList_text (x : Condition) :
    x.text.toList = (if x.negated then ['!', '$'] else ['$']) ++ x.var.toList := by
  unfold text
  rw [String.toList_append]
  split <;> rfl

theorem toList_directive (x : Condition) : x.directive.toList =
    ' ' :: '@' :: (x.keyword.toList ++ '(' :: ("if".toList ++ ':' :: ' ' ::
      ('$' :: x.var.toList ++ [')']))) := by
  unfold directive keyword
  split
  · show (" @skip(if: $" ++ x.var ++ ")").toList = _
    rw [String.toList_append, String.toList_append]
    rfl
  · show (" @include(if: $" ++ x.var ++ ")").toList = _
    rw [String.toList_append, String.toList_append]
    rfl

/-- The directive of a condition is written as any other one with its name and arguments. -/
theorem directive_eq (x : Condition) :
    x.directive = " @" ++ x.statement.1 ++ Arguments.render x.statement.2 := by
  have hrender : Arguments.render x.statement.2 = "(" ++ ("if" ++ ": " ++ ("$" ++ x.var)) ++ ")" :=
    by simp [Arguments.render, Value.render, Value.display, statement]
  apply String.toList_injective
  rw [hrender, toList_directive]
  simp [statement]

/-- The text of a condition is told from what is behind it if no name goes on there. -/
theorem told_text : Told (BeginsOutside isNameChar) (fun x : Condition => x.text.toList)
    fun x => isName x.var = true := by
  rintro ⟨negated, v⟩ ⟨negated', v'⟩ hx hy r r' hr hr' h
  have hvar (h : v.toList ++ r = v'.toList ++ r') : v = v' ∧ r = r' :=
    told_name v v' hx hy r r' hr hr' h
  simp only [toList_text] at h
  cases negated with
  | false =>
      cases negated' with
      | false =>
          obtain ⟨rfl, hrest⟩ := hvar (List.cons_eq_cons.1 h).2
          exact ⟨rfl, hrest⟩
      | true => exact absurd (List.cons_eq_cons.1 h).1 (by decide)
  | true =>
      cases negated' with
      | false => exact absurd (List.cons_eq_cons.1 h).1 (by decide)
      | true =>
          obtain ⟨rfl, hrest⟩ := hvar (List.cons_eq_cons.1 (List.cons_eq_cons.1 h).2).2
          exact ⟨rfl, hrest⟩

/-- The name of a directive is told from its arguments. -/
theorem inside_inj {n n' : String} (hn : isName n = true) (hn' : isName n' = true)
    {r r' : List Char}
    (h : ' ' :: '@' :: (n.toList ++ '(' :: r) = ' ' :: '@' :: (n'.toList ++ '(' :: r')) :
    n = n' ∧ r = r' := by
  obtain ⟨hname, hinside⟩ := told_name n n' hn hn' _ _ ⟨_, _, rfl, rfl⟩ ⟨_, _, rfl, rfl⟩
    (List.cons_eq_cons.1 (List.cons_eq_cons.1 h).2).2
  exact ⟨hname, (List.cons_eq_cons.1 hinside).2⟩

/-- Directives are closed by a bracket, so that they are told from anything. -/
theorem told_directive : Told (fun _ => True) (fun x : Condition => x.directive.toList)
    fun x => isName x.var = true := by
  intro x y hx hy r r' _ _ h
  simp only [toList_directive, List.cons_append, List.append_assoc, List.nil_append] at h
  obtain ⟨hkeyword, hinside⟩ := inside_inj x.isName_keyword y.isName_keyword h
  obtain ⟨hvar, hrest⟩ := told_name _ _ hx hy _ _ ⟨_, _, rfl, rfl⟩ ⟨_, _, rfl, rfl⟩
    (List.append_cancel_left
      (show ['i', 'f', ':', ' ', '$'] ++ _ = ['i', 'f', ':', ' ', '$'] ++ _ from hinside))
  refine ⟨?_, (List.cons_eq_cons.1 hrest).2⟩
  cases x
  cases y
  rw [Condition.mk.injEq]
  exact ⟨keyword_inj hkeyword, hvar⟩

/-- The lexemes of the directive that states a condition. -/
def lexemes (x : Condition) : List Lexeme :=
  Directive.lexemes x.keyword "if" [.punctuator .dollar, .name x.var]

theorem spells_directive {x : Condition} (hx : isName x.var = true) {cs : List Char}
    {ls : List Lexeme} (h : Spells 0 cs ls) :
    Spells 0 (x.directive.toList ++ cs) (x.lexemes ++ ls) := by
  have hvalue (cs : List Char) (ls : List Lexeme) (h : Spells 1 (')' :: cs) ls) :
      Spells 1 ('$' :: x.var.toList ++ ')' :: cs) ([.punctuator .dollar, .name x.var] ++ ls) :=
    (h.name hx rfl).punctuator rfl rfl
  have hif : isName "if" = true := by decide
  have hall := Directive.spells x.isName_keyword hif hvalue h
  simpa [toList_directive, lexemes] using hall

theorem reads_statement (x : Condition) : Directive.Reads x.lexemes x.statement :=
  Directive.reads_variable x.keyword "if" x.var

end Condition

/-! ## Clauses -/

namespace Clause

open Text Token

/-- All variables of the clause have names of the grammar. -/
def Named (c : Clause) : Prop := ∀ x ∈ c.conditions, isName x.var = true

instance (c : Clause) : Decidable c.Named := List.decidableBAll _ _

theorem toList_text {c : Clause} (h : c.conditions ≠ []) :
    c.text.toList = [' ', '&', '&', ' '].intercalate (c.conditions.map fun x => x.text.toList) := by
  rw [text, if_neg (by simpa using h), String.toList_intercalate, List.map_map]
  rfl

/-- A clause in quotation marks, as lists of clauses show it. -/
def quoted (c : Clause) : List Char := '\x22' :: c.text.toList ++ ['\x22']

theorem told_quoted : Told (fun _ => True) quoted fun c => c.conditions ≠ [] ∧ c.Named := by
  rintro c d ⟨hc, hcn⟩ ⟨hd, hdn⟩ r r' - - h
  rw [quoted, quoted, toList_text hc, toList_text hd, List.append_assoc, List.append_assoc] at h
  obtain ⟨hconditions, hrest⟩ := Condition.told_text.intercalate_inj
    (fun _ => ⟨_, _, rfl, rfl⟩) (fun _ => ⟨_, _, rfl, rfl⟩) (by decide) hcn hdn hc hd
    (List.cons_eq_cons.1 h).2
  cases c
  cases d
  exact ⟨congrArg Clause.mk hconditions, hrest⟩

theorem spells_directives {xs : List Condition} (h : ∀ x ∈ xs, isName x.var = true) :
    Spells 0 (xs.flatMap fun x => x.directive.toList) (xs.flatMap Condition.lexemes) := by
  induction xs with
  | nil => exact spells_nil
  | cons x xs ih =>
      rw [List.forall_mem_cons] at h
      exact Condition.spells_directive h.1 (ih h.2)

/-! ### Directives that state conditions -/

variable {c : Clause}

theorem polarity?_keyword {d : DirectiveNode} {x : Condition} (h : d.name = x.keyword) :
    polarity? d = some x.negated := by
  unfold polarity?
  rw [h, Condition.keyword]
  cases x.negated <;> rfl

theorem andDirective_statement (c : Clause) {d : DirectiveNode} {x : Condition}
    (h : (d.name, d.arguments) = x.statement) : c.andDirective d = c.and x := by
  obtain ⟨hname, harguments⟩ := Prod.mk.inj h
  rw [andDirective, polarity?_keyword hname, harguments]
  rfl

theorem andDirectives_statements (c : Clause) {ds : List DirectiveNode} {xs : List Condition}
    (h : ds.map (fun d => (d.name, d.arguments)) = xs.map Condition.statement) :
    c.andDirectives ds = xs.foldlM and c := by
  induction xs generalizing c ds with
  | nil =>
      obtain rfl := List.map_eq_nil_iff.1 h
      rfl
  | cons x xs ih =>
      obtain ⟨d, ds, rfl, hd, hds⟩ := List.map_eq_cons_iff.1 h
      rw [andDirectives, List.foldlM_cons, List.foldlM_cons, andDirective_statement c hd]
      exact bind_congr fun c' => ih c' hds

/-- A canonical clause is the one of its conditions. -/
theorem Canonical.ofConditions_conditions (hc : c.Canonical) :
    ofConditions c.conditions = some c := by
  cases h : ofConditions c.conditions with
  | none =>
      obtain ⟨v, hinclude, hskip⟩ := ofConditions_eq_none_iff.1 h
      exact absurd hskip (hc.consistent _ hinclude)
  | some c' =>
      rw [hc.eq_of_mem_iff (canonical_of_ofConditions h) fun x => (mem_of_ofConditions h).symm]

end Clause

/-! ## Include conditions -/

/-- A directive as it is written behind what it stands on. -/
def DirectiveNode.text (d : DirectiveNode) : String := " @" ++ d.name ++ d.arguments.render

namespace IncludeCondition

/-- The condition of a path with these directives. -/
def ofDirectives (ds : List DirectiveNode) : IncludeCondition :=
  match Clause.always.andDirectives ds with
  | none => never
  | some c => ofClause c

/-- The directives ask for the condition: none are there where it always holds, they cannot be met
where it never does, and they make up its clause otherwise. -/
structure States (ds : List DirectiveNode) (i : IncludeCondition) : Prop where
  ofDirectives_eq : ofDirectives ds = i
  always_iff : ds = [] ↔ i = always
  never_iff : Clause.always.andDirectives ds = none ↔ i = never
  clause : ∀ c, i = anyOf [c] → Clause.always.andDirectives ds = some c

/-- The names and arguments of the directives that a condition of at most one clause is printed
as. -/
def statement : IncludeCondition → List (String × Arguments)
  | always => []
  | anyOf [] => [("skip", [("if", .boolean true)])]
  | anyOf (c :: _) => c.conditions.map Condition.statement

/-- The condition comes of adding clauses that were built up by `and`. -/
def Built (i : IncludeCondition) : Prop :=
  ∃ added : List Clause, (∀ c ∈ added, ∃ xs, Clause.ofConditions xs = some c) ∧ ofClauses added = i

/-- All variables of the condition have names of the grammar. -/
def Named (i : IncludeCondition) : Prop := ∀ c ∈ i.clauses, c.Named

instance (i : IncludeCondition) : Decidable i.Named := List.decidableBAll _ _

variable {i j : IncludeCondition}

/-- No clause of a condition is empty, and the conditions of each are compatible. -/
theorem Built.mem_clauses (hi : i.Built) : ∀ c ∈ i.clauses, c.Canonical ∧ c.conditions ≠ [] := by
  obtain ⟨added, hadded, rfl⟩ := hi
  have hcanonical : ∀ c ∈ added, c.Canonical := by
    intro c hc
    obtain ⟨xs, hxs⟩ := hadded c hc
    exact Clause.canonical_of_ofConditions hxs
  intro c hc
  rcases ofClauses_cases hcanonical with ⟨-, heq⟩ | ⟨hnot, kept, heq, hmin⟩
  · rw [heq] at hc
    exact absurd hc List.not_mem_nil
  · rw [heq] at hc
    have hc := hmin.subset hc
    refine ⟨hcanonical c hc, fun hnil => hnot ?_⟩
    rwa [← show c = Clause.always from congrArg Clause.mk hnil]

/-! ### At most one clause -/

theorem one_lt_length (c c' : Clause) (cs : List Clause) :
    1 < (anyOf (c :: c' :: cs)).clauses.length := Nat.one_lt_succ_succ _

theorem andDirectives_skip {ds : List DirectiveNode}
    (h : ds.map (fun d => (d.name, d.arguments)) = [("skip", [("if", .boolean true)])]) :
    Clause.always.andDirectives ds = none := by
  obtain ⟨⟨name, arguments, location⟩, rfl, hd⟩ := List.map_eq_singleton_iff.1 h
  obtain ⟨rfl, rfl⟩ := Prod.mk.inj hd
  rfl

theorem ofClause_of_ne_nil {c : Clause} (h : c.conditions ≠ []) : ofClause c = anyOf [c] := by
  rw [ofClause, never, addClause, if_neg (by simpa [Clause.isAlways] using h)]
  rfl

theorem ofDirectives_of_none {ds : List DirectiveNode}
    (h : Clause.always.andDirectives ds = none) : ofDirectives ds = never := by
  rw [ofDirectives, h]

theorem ofDirectives_of_some {ds : List DirectiveNode} {c : Clause}
    (h : Clause.always.andDirectives ds = some c) : ofDirectives ds = ofClause c := by
  rw [ofDirectives, h]

/-- Directives with the names and arguments of the statement ask for the condition. -/
theorem states_of_statement (hi : i.Built) (hone : i.clauses.length ≤ 1)
    {ds : List DirectiveNode} (h : ds.map (fun d => (d.name, d.arguments)) = i.statement) :
    States ds i := by
  match i with
  | always =>
      obtain rfl := List.map_eq_nil_iff.1 h
      exact ⟨rfl, iff_of_true rfl rfl, iff_of_false (Option.some_ne_none _)
        IncludeCondition.noConfusion, fun _ => IncludeCondition.noConfusion⟩
  | anyOf [] =>
      have hnone := andDirectives_skip h
      refine ⟨ofDirectives_of_none hnone, iff_of_false ?_ IncludeCondition.noConfusion,
        iff_of_true hnone rfl, fun _ heq => absurd (anyOf.inj heq) (List.cons_ne_nil _ _).symm⟩
      rintro rfl
      cases h
  | anyOf [c] =>
      obtain ⟨hcanonical, hne⟩ := hi.mem_clauses c (List.mem_singleton_self c)
      have hsome : Clause.always.andDirectives ds = some c := by
        rw [Clause.andDirectives_statements _ h]
        exact hcanonical.ofConditions_conditions
      refine ⟨?_, iff_of_false ?_ IncludeCondition.noConfusion, iff_of_false ?_ ?_, ?_⟩
      · rw [ofDirectives_of_some hsome, ofClause_of_ne_nil hne]
      · rintro rfl
        exact hne (List.map_eq_nil_iff.1 h.symm)
      · rw [hsome]
        exact Option.some_ne_none c
      · exact fun heq => List.cons_ne_nil _ _ (anyOf.inj heq)
      · intro c' heq
        rw [hsome, (List.cons_eq_cons.1 (anyOf.inj heq)).1]
  | anyOf (c :: c' :: cs) => exact absurd hone (not_le_of_gt (one_lt_length c c' cs))

/-! ### The text -/

/-- A condition of at most one clause is written as the directives that state it. -/
theorem directives_eq_join (hone : i.clauses.length ≤ 1)
    {ds : List DirectiveNode} (h : ds.map (fun d => (d.name, d.arguments)) = i.statement) :
    i.directives = String.join (ds.map DirectiveNode.text) := by
  have htexts : ds.map DirectiveNode.text =
      i.statement.map fun d => " @" ++ d.1 ++ Arguments.render d.2 := by
    rw [← h, List.map_map]
    rfl
  rw [htexts]
  match i, hone with
  | always, _ => rfl
  | anyOf [], _ => decide
  | anyOf [c], _ =>
      rw [directives, statement, List.map_map]
      exact congrArg String.join (List.map_congr_left fun x _ => x.directive_eq)
  | anyOf (c :: c' :: cs), hone => exact absurd hone (not_le_of_gt (one_lt_length c c' cs))

theorem toList_directives_clause (c : Clause) :
    (anyOf [c]).directives.toList = c.conditions.flatMap fun x => x.directive.toList := by
  rw [directives, String.toList_join, List.flatMap_map]

/-- These directives are what is read from the text. -/
theorem exists_read (hone : i.clauses.length ≤ 1) (hnamed : i.Named) :
    ∃ ds, Directive.listOfSource? i.directives = some ds ∧
      ds.map (fun d => (d.name, d.arguments)) = i.statement := by
  match i with
  | always => exact ⟨[], rfl, rfl⟩
  | anyOf [] =>
      have hvalue (cs : List Char) (ls : List Lexeme) (h : Token.Spells 1 (')' :: cs) ls) :
          Token.Spells 1 ("true".toList ++ ')' :: cs) ([.name "true"] ++ ls) :=
        h.name (by decide) rfl
      have hskip : isName "skip" = true := by decide
      have hif : isName "if" = true := by decide
      have hreads : ∀ x ∈ [()], Directive.Reads (Directive.lexemes "skip" "if" [.name "true"])
          ("skip", [("if", .boolean true)]) :=
        fun _ _ => Directive.reads_name "skip" "if" "true"
      exact Directive.listOfSource?_spells hreads
        (Directive.spells hskip hif hvalue Token.spells_nil)
  | anyOf [c] =>
      have hspells : Token.Spells 0 (anyOf [c]).directives.toList
          (c.conditions.flatMap Condition.lexemes) := by
        rw [toList_directives_clause]
        exact Clause.spells_directives (hnamed c (List.mem_singleton_self c))
      exact Directive.listOfSource?_spells (fun x _ => x.reads_statement) hspells
  | anyOf (c :: c' :: cs) => exact absurd hone (not_le_of_gt (one_lt_length c c' cs))

/-! ### Equal texts -/

/-- What a text shows of the shape of a condition: up to five characters behind its first
bracket. -/
def opening (cs : List Char) : List Char := ((cs.dropWhile (· ≠ '(')).drop 1).take 5

/-- How the directives of a condition go on behind their first bracket. -/
def shape : IncludeCondition → List Char
  | always => []
  | anyOf [] => ['i', 'f', ':', ' ', 't']
  | anyOf [_] => ['i', 'f', ':', ' ', '$']
  | anyOf (_ :: _ :: _) => ['a', 'n', 'y', 'O', 'f']

theorem toList_directives_list (c c' : Clause) (cs : List Clause) :
    (anyOf (c :: c' :: cs)).directives.toList = " @include(anyOf: [".toList ++
      ([',', ' '].intercalate ((c :: c' :: cs).map Clause.quoted) ++ [']', ')']) := by
  have hquoted (c : Clause) : ("\"" ++ c.text ++ "\"").toList = c.quoted := by
    simp [Clause.quoted]
  have htext : (anyOf (c :: c' :: cs)).directives = " @include(anyOf: [" ++
      ", ".intercalate ((c :: c' :: cs).map fun c => "\"" ++ c.text ++ "\"") ++ "])" := rfl
  rw [htext, String.toList_append, String.toList_append, String.toList_intercalate,
    List.map_map, List.append_assoc]
  simp only [Function.comp_def, hquoted]
  rfl

theorem opening_directives (hi : i.Built) : opening i.directives.toList = i.shape := by
  match i with
  | always => rfl
  | anyOf [] => rfl
  | anyOf [⟨[]⟩] => exact absurd rfl (hi.mem_clauses _ (List.mem_singleton_self _)).2
  | anyOf [⟨x :: xs⟩] =>
      rw [toList_directives_clause, List.flatMap_cons, Condition.toList_directive]
      unfold Condition.keyword
      cases x.negated <;> rfl
  | anyOf (c :: c' :: cs) =>
      rw [toList_directives_list]
      rfl

theorem directives_inj (hi : i.Built) (hj : j.Built) (hin : i.Named) (hjn : j.Named)
    (h : i.directives = j.directives) : i = j := by
  have hshape : i.shape = j.shape := by
    rw [← opening_directives hi, ← opening_directives hj, h]
  replace h := congrArg String.toList h
  rcases i with _ | (_ | ⟨c, _ | ⟨c', cs⟩⟩) <;> rcases j with _ | (_ | ⟨d, _ | ⟨d', ds⟩⟩)
  -- what is left are conditions of one shape
  all_goals cases hshape
  · rfl
  · rfl
  · rw [toList_directives_clause, toList_directives_clause] at h
    have hne (x : Condition) : x.directive.toList ≠ [] := by simp [Condition.toList_directive]
    have hconditions := Condition.told_directive.flatMap_inj hne
      (hin c (List.mem_singleton_self c)) (hjn d (List.mem_singleton_self d)) h
    cases c
    cases d
    exact congrArg (fun xs => anyOf [Clause.mk xs]) hconditions
  · rw [toList_directives_list, toList_directives_list] at h
    obtain ⟨hclauses, -⟩ := Clause.told_quoted.intercalate_inj (fun _ => trivial) (fun _ => trivial)
      (by decide) (fun e he => ⟨(hi.mem_clauses e he).2, hin e he⟩)
      (fun e he => ⟨(hj.mem_clauses e he).2, hjn e he⟩)
      (List.cons_ne_nil _ _) (List.cons_ne_nil _ _) (List.append_cancel_left h)
    exact congrArg anyOf hclauses

/-- **Printed conditions mean what they are printed for.** A condition of at most one clause is
written as directives that ask for just that condition, whatever its variables are called. If they
have names of the grammar, these directives can be read from the text, and texts of conditions of
any number of clauses are equal only where the conditions are. -/
theorem directives_state_condition (hi : i.Built) :
    (i.clauses.length ≤ 1 →
      (∃ ds, i.directives = String.join (ds.map DirectiveNode.text) ∧ States ds i) ∧
      (i.Named → ∃ ds, Directive.listOfSource? i.directives = some ds ∧
        ∀ a : SyntaxArena, States (a.lowerDirectives ds) i)) ∧
    ∀ j : IncludeCondition, j.Built → i.Named → j.Named → i.directives = j.directives → i = j := by
  refine ⟨fun hone => ⟨?_, fun hnamed => ?_⟩, fun j hj hin hjn => directives_inj hi hj hin hjn⟩
  · have hds : (i.statement.map fun d => DirectiveNode.mk d.1 d.2 .synthetic).map
        (fun d => (d.name, d.arguments)) = i.statement := by
      rw [List.map_map]
      exact List.map_id _
    exact ⟨_, directives_eq_join hone hds, states_of_statement hi hone hds⟩
  · obtain ⟨ds, hread, hds⟩ := exists_read hone hnamed
    refine ⟨ds, hread, fun a => states_of_statement hi hone ?_⟩
    rw [← hds, SyntaxArena.lowerDirectives, List.map_map]
    rfl

/-- A clause of two conditions, and two clauses of one each. -/
theorem directives_state_condition_both :
    (∃ ds, Directive.listOfSource? " @include(if: $a) @skip(if: $b)" = some ds ∧
      ∀ a : SyntaxArena, States (a.lowerDirectives ds)
        (anyOf [⟨[.includeIf "a", .skipIf "b"]⟩])) ∧
    (anyOf [⟨[.includeIf "a", .skipIf "b"]⟩]).directives ≠
      (anyOf [⟨[.includeIf "a"]⟩, ⟨[.skipIf "b"]⟩]).directives := by
  have hbuilt : Built (anyOf [⟨[.includeIf "a", .skipIf "b"]⟩]) :=
    ⟨[⟨[.includeIf "a", .skipIf "b"]⟩],
      List.forall_mem_singleton.2 ⟨[.skipIf "b", .includeIf "a"], by decide⟩, by decide⟩
  have hbuilt' : Built (anyOf [⟨[.includeIf "a"]⟩, ⟨[.skipIf "b"]⟩]) :=
    ⟨[⟨[.includeIf "a"]⟩, ⟨[.skipIf "b"]⟩],
      List.forall_mem_cons.2 ⟨⟨[.includeIf "a"], by decide⟩,
        List.forall_mem_singleton.2 ⟨[.skipIf "b"], by decide⟩⟩, by decide⟩
  obtain ⟨hone, hequal⟩ := directives_state_condition hbuilt
  refine ⟨(hone (by decide)).2 (by decide), fun h => ?_⟩
  exact absurd (hequal _ hbuilt' (by decide) (by decide) h) (by decide)

end IncludeCondition

end QueryPlan
