import QueryPlan.Proofs.Plan.Legible
import QueryPlan.Proofs.Plan.Weight

/-!
# How many lines a plan takes

The lines of a plan are determined by its shape: a block takes a line for its head and one for its
brace, and a selection without sub-selections takes one. What is written into a line comes from
names, which are on one line, from strings that are quoted, which are too, and from values. A string
inside a list or an object may be written as a block literal, and that is the only thing that takes
more lines than the shape says (`CompileInput.breaks_of_texts`).
-/

set_option autoImplicit false

namespace QueryPlan

open QueryPlan.Text

/-! ## The shape of a plan -/

/-- The lines that a selection takes, besides those below its key. -/
def Selection.lineCount (s : Selection) : Nat := if s.selectionSet.isSome then 2 else 1

/-- The lines of the selections of a set and its deferred fragments, and of these fragments. -/
def SelectionSet.lineCount (set : SelectionSet) : Nat :=
  (set.parts.map fun part =>
    (part.selections.map Selection.lineCount).sum + 2 * part.deferred.length).sum

def SelectionVariants.lineCount (v : SelectionVariants) : Nat :=
  (v.sets.values.map fun set => 2 + set.lineCount).sum

/-- The lines that a plan takes by its shape. -/
def Plan.lineCount (p : Plan) : Nat :=
  2 + (p.variants.values.map SelectionVariants.lineCount).sum

/-! ## Block literals in a plan -/

def VariableNode.blockBreaks (v : VariableNode) : Nat :=
  v.default.elim 0 Syntax.Value.blockBreaks

def OperationNode.blockBreaks (o : OperationNode) : Nat :=
  (o.variableDefinitions.map VariableNode.blockBreaks).sum

def SelectionSet.blockBreaks (set : SelectionSet) : Nat :=
  (set.parts.map fun part => (part.selections.map fun s => s.arguments.blockBreaks).sum).sum

def SelectionVariants.blockBreaks (v : SelectionVariants) : Nat :=
  (v.sets.values.map SelectionSet.blockBreaks).sum

/-- The line feeds of all block literals in the defaults of variables and in arguments. -/
def Plan.blockBreaks (p : Plan) : Nat :=
  p.operation.blockBreaks + (p.variants.values.map SelectionVariants.blockBreaks).sum

/-! ## What is written into a line -/

theorem breaks_indented (depth : Nat) (line : String) :
    breaks (indented depth line) = breaks line := by
  have hspaces : OneLine (String.join (List.replicate depth "  ")) :=
    oneLine_join fun s hs => by
      rw [List.eq_of_mem_replicate hs]
      decide
  rw [indented, breaks_append, hspaces, Nat.zero_add]

/-- A quoted text is on one line, whatever it holds. -/
theorem oneLine_quotedText (s : String) : OneLine (quotedText s) :=
  oneLine_ofList.2 (Syntax.StringLiteral.not_mem_quote s.toList)

theorem Condition.oneLine_text {c : Condition} (h : OneLine c.var) : OneLine c.text := by
  have hmark : OneLine (if c.negated then "!$" else "$") := by
    split <;> decide
  exact hmark.append h

theorem Condition.oneLine_directive {c : Condition} (h : OneLine c.var) : OneLine c.directive := by
  have hstring : OneLine (toString c.var) := h
  have hclose : OneLine ")" := by decide
  unfold Condition.directive
  split
  · exact ((by decide : OneLine " @skip(if: $").append hstring).append hclose
  · exact ((by decide : OneLine " @include(if: $").append hstring).append hclose

theorem Clause.Legible.oneLine_text {c : Clause} (h : c.Legible) : OneLine c.text := by
  unfold Clause.text
  split
  · decide
  · refine oneLine_intercalate (by decide) fun s hs => ?_
    obtain ⟨x, hx, rfl⟩ := List.mem_map.1 hs
    exact Condition.oneLine_text (h x hx)

theorem IncludeCondition.Legible.oneLine_directives {i : IncludeCondition} (h : i.Legible) :
    OneLine i.directives := by
  match i with
  | .always => decide
  | .anyOf [] => decide
  | .anyOf [c] =>
      refine oneLine_join fun s hs => ?_
      obtain ⟨x, hx, rfl⟩ := List.mem_map.1 hs
      exact Condition.oneLine_directive (h c List.mem_cons_self x hx)
  | .anyOf (c :: c' :: cs) =>
      have hquote : OneLine "\"" := by decide
      have hclauses : OneLine (", ".intercalate
          ((c :: c' :: cs).map fun c => "\"" ++ c.text ++ "\"")) := by
        refine oneLine_intercalate (by decide) fun s hs => ?_
        obtain ⟨x, hx, rfl⟩ := List.mem_map.1 hs
        exact (hquote.append (h x hx).oneLine_text).append hquote
      exact ((by decide : OneLine " @include(anyOf: [").append hclauses).append (by decide)

theorem SelectionDraft.Legible.oneLine_label {s : Selection} (h : s.toSelectionDraft.Legible) :
    OneLine s.label := by
  unfold Selection.label
  split
  · exact h.field
  · exact (h.responseKey.append (by decide)).append h.field

/-- The line of a selection has no other line feeds than those in its arguments. -/
theorem SelectionDraft.Legible.breaks_head {s : Selection} (h : s.toSelectionDraft.Legible) :
    breaks s.head = s.arguments.blockBreaks := by
  have hinternal : breaks (if s.internal then " @internal" else "") = 0 := by
    split <;> decide
  rw [Selection.head, breaks_append, breaks_append, breaks_append, h.oneLine_label,
    h.condition.oneLine_directives, hinternal, Syntax.Arguments.breaks_render h.arguments]
  omega

/-- The label of a deferred fragment adds no line feed. -/
theorem DeferredFragment.oneLine_deferArguments {ifVariable label : Option String}
    (h : ∀ v ∈ ifVariable, OneLine v) : OneLine (deferArguments ifVariable label) := by
  unfold deferArguments
  dsimp only
  split
  · decide
  · refine ((by decide : OneLine "(").append (oneLine_intercalate (by decide) fun s hs => ?_)).append
      (by decide)
    rcases List.mem_append.1 hs with hs | hs
    · obtain ⟨v, hv, rfl⟩ := List.mem_map.1 hs
      exact (by decide : OneLine "if: $").append (h v (Option.mem_toList.1 hv))
    · obtain ⟨l, -, rfl⟩ := List.mem_map.1 hs
      exact (by decide : OneLine "label: ").append (oneLine_quotedText l)

theorem DeferredFragment.Legible.oneLine_head {σ : Type} {d : DeferredFragment σ}
    (h : d.Legible) : OneLine d.head := by
  unfold DeferredFragment.head
  refine ((((by decide : OneLine "...").append ?_).append
    h.condition.oneLine_directives).append (by decide)).append
    (oneLine_deferArguments h.ifVariable)
  cases ht : d.typeCondition with
  | none => exact (by decide : OneLine "")
  | some t => exact (by decide : OneLine " on ").append (h.typeCondition t ht)

theorem VariableNode.Legible.breaks_text {v : VariableNode} (h : v.Legible) :
    breaks v.text = v.blockBreaks := by
  have htyped : OneLine ("$" ++ v.name ++ ": " ++ v.type.text) :=
    (((by decide : OneLine "$").append h.name).append (by decide)).append h.type
  unfold VariableNode.text VariableNode.blockBreaks
  cases hd : v.default with
  | none => exact htyped.append (by decide)
  | some d =>
      have hequals : breaks " = " = 0 := by decide
      show breaks ("$" ++ v.name ++ ": " ++ v.type.text ++ (" = " ++ d.render)) = d.blockBreaks
      rw [breaks_append, htyped, breaks_append, hequals,
        Syntax.Value.breaks_render (h.default d hd)]
      omega

theorem OperationNode.oneLine_keyword (o : OperationNode) : OneLine o.kind.keyword := by
  cases o.kind <;> decide

/-- The first line of a plan has no other line feeds than those in the defaults of variables. -/
theorem OperationNode.Legible.breaks_head {o : OperationNode} (h : o.Legible) :
    breaks o.head = o.blockBreaks := by
  have hvariables : breaks (if o.variableDefinitions.isEmpty then ""
      else "(" ++ ", ".intercalate (o.variableDefinitions.map VariableNode.text) ++ ")") =
        o.blockBreaks := by
    split
    · next hempty =>
        rw [OperationNode.blockBreaks, List.isEmpty_iff.1 hempty]
        rfl
    · have heach : (o.variableDefinitions.map VariableNode.text).map breaks =
          o.variableDefinitions.map VariableNode.blockBreaks := by
        rw [List.map_map]
        exact List.map_congr_left fun v hv => (h.variableDefinitions v hv).breaks_text
      have hopen : breaks "(" = 0 := by decide
      have hclose : breaks ")" = 0 := by decide
      rw [breaks_append, breaks_append, breaks_intercalate (by decide), heach, hopen, hclose,
        OperationNode.blockBreaks]
      omega
  unfold OperationNode.head
  cases hn : o.name with
  | none =>
      show breaks (o.kind.keyword ++ "" ++ _) = _
      rw [breaks_append, hvariables, o.oneLine_keyword.append (by decide), Nat.zero_add]
  | some n =>
      have hname : OneLine (" " ++ n) := (by decide : OneLine " ").append (h.name n hn)
      show breaks (o.kind.keyword ++ (" " ++ n) ++ _) = _
      rw [breaks_append, hvariables, o.oneLine_keyword.append hname, Nat.zero_add]

/-! ## All lines -/

theorem linesWeight_one (lines : List String) : linesWeight (fun _ => 1) lines = lines.length := by
  rw [linesWeight, List.map_const', List.sum_replicate, smul_eq_mul, Nat.mul_one]

theorem breaks_print (p : Plan) :
    breaks p.print = linesWeight breaks p.lines + p.lines.length := by
  have hone : breaks "\n" = 1 := by decide
  rw [Plan.print, breaks_join, List.map_map, ← linesWeight_one, linesWeight, linesWeight,
    ← List.sum_map_add]
  congr 1
  refine List.map_congr_left fun line _ => ?_
  show breaks (line ++ "\n") = breaks line + 1
  rw [breaks_append, hone]

theorem Plan.weight_one (p : Plan) : p.weight (fun _ => 1) = p.lineCount := by
  have hset : ∀ set : SelectionSet, set.weight (fun _ => 1) = set.lineCount := by
    intro set
    rw [SelectionSet.weight, SelectionSet.lineCount]
    congr 1
    refine List.map_congr_left fun part _ => ?_
    show _ + (part.deferred.map fun _ => 2).sum = _
    rw [List.map_const', List.sum_replicate, smul_eq_mul, Nat.mul_comm]
    rfl
  have hvariants : ∀ v : SelectionVariants, v.weight (fun _ => 1) = v.lineCount := by
    intro v
    rw [SelectionVariants.weight, SelectionVariants.lineCount, OrderedMap.values, List.map_map]
    congr 1
    refine List.map_congr_left fun e _ => ?_
    show 2 + e.2.weight _ = 2 + e.2.lineCount
    rw [hset]
  rw [weight, lineCount, List.map_congr_left fun v _ => hvariants v]
  rfl

theorem breaks_blockWeight (head : String) : blockWeight breaks head = breaks head := by
  have hopen : breaks " \x7b" = 0 := by decide
  have hclose : breaks "\x7d" = 0 := by decide
  rw [blockWeight, breaks_append, hopen, hclose]
  rfl

theorem SelectionSet.weight_breaks {set : SelectionSet} (h : ∀ part ∈ set.parts, part.Legible) :
    set.weight breaks = set.blockBreaks := by
  rw [weight, blockBreaks]
  congr 1
  refine List.map_congr_left fun part hpart => ?_
  have hselections : part.selections.map (Selection.weight breaks) =
      part.selections.map fun s => s.arguments.blockBreaks := by
    refine List.map_congr_left fun s hs => ?_
    have hhead := ((h part hpart).selections s hs).breaks_head
    rw [Selection.weight]
    split
    · rw [breaks_blockWeight, hhead]
    · exact hhead
  have hdeferred : (part.deferred.map fun d => blockWeight breaks d.head).sum = 0 := by
    refine List.sum_eq_zero fun n hn => ?_
    obtain ⟨d, hd, rfl⟩ := List.mem_map.1 hn
    rw [breaks_blockWeight]
    exact ((h part hpart).deferred d hd).oneLine_head
  rw [hselections, hdeferred, Nat.add_zero]

theorem Plan.Legible.weight_breaks {p : Plan} (h : p.Legible) : p.weight breaks = p.blockBreaks := by
  have hvariants : ∀ v ∈ p.variants.values, v.weight breaks = v.blockBreaks := by
    intro v hv
    obtain ⟨key, hkey⟩ := OrderedMap.mem_values_iff.1 hv
    rw [SelectionVariants.weight, SelectionVariants.blockBreaks, OrderedMap.values, List.map_map]
    congr 1
    refine List.map_congr_left fun e he => ?_
    have hset : p.selectionSet key e.1 = .ok e.2 :=
      selectionSet_eq_ok_iff.2 ⟨v, hkey, OrderedMap.get?_eq_some_iff.2 he⟩
    have htype : breaks ("... on " ++ e.1) = 0 := (by decide : OneLine "... on ").append (h.type hset)
    rw [breaks_blockWeight, htype, SelectionSet.weight_breaks (h.part hset), Nat.zero_add]
    rfl
  rw [weight, blockBreaks, breaks_blockWeight, h.operation.breaks_head,
    List.map_congr_left hvariants]

namespace CompileInput

variable {σ : Type} {input : CompileInput σ} {p : Plan}

/-- **A printed plan has the lines of its shape, and those of block literals.** Whatever texts a
plan was compiled from, and with whatever lawful optimizers: it has a line for every head and every
closing brace. The line feeds of its text are one for each of these lines and those inside block
literals, in which strings with line feeds are written that stand in lists or objects. No name, no
label and no string that is itself an argument or a default takes another line. -/
theorem breaks_of_texts {texts : List (Option String × String)}
    (hschema : Schema.ofTexts texts = .ok input.schema) {file : Option String} {text : String}
    (hdocument : Document.ofSource file text = .ok input.document)
    (hindex : FragmentIndex.build input.document = .ok input.fragments)
    (hlawful : input.pipeline.Lawful) {bound : Nat} {name : Option String} {memory memory' : σ}
    (h : input.compileWithin bound name memory = (.ok p, memory')) :
    p.lines.length = p.lineCount ∧ breaks p.print = p.lineCount + p.blockBreaks := by
  have hbuilt := Schema.built_of_texts hschema
  have hdoc := Document.built_of_source hdocument
  have htree := (compiled_of_compileWithin hbuilt hdoc hlawful h).isTree
  have hends := (walk_eq_of_compileWithin hbuilt hdoc hlawful h _ (Nat.le_succ _)).2
  have hlength : p.lines.length = p.lineCount := by
    rw [← linesWeight_one, p.weight_lines (fun _ _ => rfl) htree hends, p.weight_one]
  refine ⟨hlength, ?_⟩
  rw [breaks_print, hlength, p.weight_lines breaks_indented htree hends,
    (legible_of_texts hschema hdocument hindex hlawful h).weight_breaks]
  omega

end CompileInput

namespace Listed

/-- A field that takes a list and an object. -/
def schemaText : String :=
  "type Query \x7b f(a: [String], b: In): Int \x7d input In \x7b k: String \x7d"

/-- A string of two lines in the list. -/
def listText : String := "\x7b f(a: [\"x\\ny\"]) \x7d"

/-- Strings with line feeds: in the list of a default, in a list, in an object, as a label, and as
an argument. -/
def operationText : String :=
  "query Q($v: [String] = [\"p\\nq\"], $d: Boolean) \x7b f(a: [\"x\\ny\"], b: \x7bk: \"z\\n\"\x7d) " ++
    "... @defer(if: $d, label: \"l\\nm\") \x7b g: f(a: \"x\\ny\") \x7d \x7d"

theorem schema_isOk : (Schema.ofTexts [(none, schemaText)]).isOk = true := by decide +kernel

def schema : Schema := okValue (Schema.ofTexts [(none, schemaText)]) schema_isOk

/-- A document that is compiled without optimizers. -/
def inputOf (document : Document) (h : (FragmentIndex.build document).isOk = true) :
    CompileInput Journal :=
  ⟨schema, document, okValue (FragmentIndex.build document) h, .empty⟩

theorem operationDocument_isOk : (Document.ofSource none operationText).isOk = true := by
  decide +kernel

def operationDocument : Document :=
  okValue (Document.ofSource none operationText) operationDocument_isOk

theorem operationIndex_isOk : (FragmentIndex.build operationDocument).isOk = true := by
  decide +kernel

def operationInput : CompileInput Journal := inputOf operationDocument operationIndex_isOk

theorem listDocument_isOk : (Document.ofSource none listText).isOk = true := by decide +kernel

def listDocument : Document := okValue (Document.ofSource none listText) listDocument_isOk

theorem listIndex_isOk : (FragmentIndex.build listDocument).isOk = true := by decide +kernel

def listInput : CompileInput Journal := inputOf listDocument listIndex_isOk

/-- Eight line feeds of this plan belong to block literals: three to that in the default, three to
that in the list, and two to that in the object. The label and the last argument have none. -/
theorem breaks_operation :
    Schema.ofTexts [(none, schemaText)] = .ok schema ∧
    Document.ofSource none operationText = .ok operationDocument ∧
    FragmentIndex.build operationDocument = .ok operationInput.fragments ∧
    ∃ p memory, operationInput.compileWithin 10 none [] = (.ok p, memory) ∧
      p.lineCount = 8 ∧ p.blockBreaks = 8 ∧
      p.lines.length = p.lineCount ∧ breaks p.print = p.lineCount + p.blockBreaks := by
  obtain ⟨p, memory, h, hcount⟩ := exists_eq_ok_and (x := operationInput.compileWithin 10 none [])
    (t := fun p => decide (p.lineCount = 8 ∧ p.blockBreaks = 8)) (by decide +kernel)
  obtain ⟨hlines, hblocks⟩ := of_decide_eq_true hcount
  have hschema := eq_ok_okValue schema_isOk
  have hdocument := eq_ok_okValue operationDocument_isOk
  have hindex := eq_ok_okValue operationIndex_isOk
  have hlawful : operationInput.pipeline.Lawful := Pipeline.passive_empty.lawful
  exact ⟨hschema, hdocument, hindex, p, memory, h, hlines, hblocks,
    CompileInput.breaks_of_texts hschema hdocument hindex hlawful h⟩

/-- A plan of five lines that is printed on eight: the string in the list is written on three lines
of its own. -/
theorem breaks_list :
    Schema.ofTexts [(none, schemaText)] = .ok schema ∧
    Document.ofSource none listText = .ok listDocument ∧
    FragmentIndex.build listDocument = .ok listInput.fragments ∧
    ∃ p memory, listInput.compileWithin 10 none [] = (.ok p, memory) ∧
      p.lineCount = 5 ∧ breaks p.print = 8 := by
  obtain ⟨p, memory, h, hcount⟩ := exists_eq_ok_and (x := listInput.compileWithin 10 none [])
    (t := fun p => decide (p.lineCount = 5 ∧ breaks p.print = 8)) (by decide +kernel)
  exact ⟨eq_ok_okValue schema_isOk, eq_ok_okValue listDocument_isOk, eq_ok_okValue listIndex_isOk,
    p, memory, h, of_decide_eq_true hcount⟩

end Listed

end QueryPlan
