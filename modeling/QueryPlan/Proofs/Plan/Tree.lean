import QueryPlan.Proofs.Plan.Made

/-!
# A plan is a tree

The keys of a plan are those of nodes in a tree, whatever lawful optimizers have revised it: each
selection with sub-selections owns a key of its own, and every key but the root is owned. So a
reader that follows the keys down from the root meets each of them once and leaves none out.
-/

set_option autoImplicit false

namespace QueryPlan

namespace Plan

/-- The keys of all selections, those in deferred fragments included, with repetitions. -/
def childKeys (p : Plan) : List SelectionSetId := VariantMap.childKeys p.variants

/-- Every key but the root has exactly one owner, and all of them are below the root. -/
structure IsTree (p : Plan) : Prop where
  root_free : p.root ∉ p.childKeys
  nodup : p.childKeys.Nodup
  mem_keys_iff : ∀ k, k ∈ p.variants.keys ↔ k = p.root ∨ k ∈ p.childKeys
  reached : ∀ k ∈ p.variants.keys, VariantMap.Reaches p.variants [p.root] k

end Plan

namespace CompileInput

variable {σ : Type} {input : CompileInput σ}

/-- Where nothing is pending and only the root is loose, the keys make up a tree. -/
theorem Compiled.isTree {bound : Nat} {name : Option String} {p : Plan}
    (h : input.Compiled bound name p) : p.IsTree := by
  obtain ⟨s, hs, howned⟩ := h.owned
  -- nothing is pending, so exactly the claimed keys have been reached
  have hkeys : ∀ k, p.variants.keys.count k = s.claimed.count k := by
    intro k
    rw [← hs, ← howned.keys k]
    exact (Nat.add_zero _).symm
  -- and all of them but the root are owned
  have hchildren : ∀ k, p.childKeys.count k + [p.root].count k = s.claimed.count k := by
    intro k
    rw [← howned.children k, hs, Plan.childKeys]
  have hone : ∀ k, s.claimed.count k ≤ 1 := List.nodup_iff_count_le_one.1 howned.nodup
  refine ⟨fun hmem => ?_, List.nodup_iff_count_le_one.2 fun k => ?_, fun k => ?_, fun k hk => ?_⟩
  · have hpos := List.count_pos_iff.2 hmem
    have heq := hchildren p.root
    rw [List.count_singleton_self] at heq
    have hle := hone p.root
    omega
  · have heq := hchildren k
    have hle := hone k
    omega
  · have heq := hchildren k
    rw [← hkeys k] at heq
    rw [← List.count_pos_iff, ← heq, Nat.add_pos_iff_pos_or_pos, List.count_pos_iff,
      List.count_pos_iff, List.mem_singleton, or_comm]
  · rw [← hs] at hk ⊢
    exact howned.reaches_of_mem_keys hk

/-- **Every compiled plan is a tree.** With whatever lawful optimizers and from whatever
operation it was compiled, no selection owns the root, no two selections own the same key, the
keys are the root and those that are owned, and all of them are reached from the root. -/
theorem isTree_of_compileWithin (hschema : input.schema.Built)
    (hdocument : input.document.Built) (hlawful : input.pipeline.Lawful) {bound : Nat}
    {name : Option String} {memory memory' : σ} {p : Plan}
    (h : input.compileWithin bound name memory = (.ok p, memory')) :
    p.root ∉ p.childKeys ∧ p.childKeys.Nodup ∧
      (∀ k, k ∈ p.variants.keys ↔ k = p.root ∨ k ∈ p.childKeys) ∧
      ∀ k ∈ p.variants.keys, VariantMap.Reaches p.variants [p.root] k := by
  obtain ⟨hroot, hnodup, hkeys, hreached⟩ :=
    (compiled_of_compileWithin hschema hdocument hlawful h).isTree
  exact ⟨hroot, hnodup, hkeys, hreached⟩

end CompileInput

/-! ## A schema and an operation to try it on -/

/-- The result of a computation that does not fail. -/
def okValue {ε α : Type} : (x : Except ε α) → x.isOk = true → α
  | .ok a, _ => a

theorem eq_ok_okValue {ε α : Type} {x : Except ε α} (h : x.isOk = true) :
    x = .ok (okValue x h) := by
  cases x with
  | error e => cases h
  | ok a => rfl

-- whoever wants the value goes through the lemma, and does not have it computed
attribute [irreducible] okValue

theorem eq_ok_of_toOption {ε α : Type} {x : Except ε α} {a : α} (h : x.toOption = some a) :
    x = .ok a := by
  cases x with
  | error e => cases h
  | ok b => exact congrArg Except.ok (Option.some.inj h)

theorem exists_eq_ok {ε α β : Type} {x : Except ε α × β} (h : x.1.isOk = true) :
    ∃ a b, x = (.ok a, b) :=
  ⟨okValue x.1 h, x.2, Prod.ext (eq_ok_okValue h) rfl⟩

/-- The same with a test of the result. -/
theorem exists_eq_ok_and {ε α β : Type} {x : Except ε α × β} {t : α → Bool}
    (h : x.1.toOption.any t = true) : ∃ a b, x = (.ok a, b) ∧ t a = true := by
  obtain ⟨a, ha, htest⟩ := (Option.any_eq_true _ _).1 h
  exact ⟨a, x.2, Prod.ext (eq_ok_of_toOption ha) rfl, htest⟩

namespace Linked

open Syntax

def here : Position := ⟨1, 1⟩

/-- Nodes that link to one another: `next` leads from a node to any other. -/
def types : SchemaDocument :=
  let next : FieldDefinition := ⟨"next", .named "Node", [], none, here⟩
  [.type ⟨"Node", none, .interface [] [next], here⟩,
   .type ⟨"Query", none, .object ["Node"] [next], here⟩,
   .type ⟨"Leaf", none, .object ["Node"] [next], here⟩]

def builder : Except SchemaError SchemaBuilder :=
  (SchemaBuilder.empty.nameSource none).2.addDocument (SchemaBuilder.empty.nameSource none).1
    types

def loaded : SchemaBuilder := okValue builder (by rfl)

def schema : Schema := okValue loaded.build (by decide +kernel)

theorem schema_built : schema.Built :=
  ⟨loaded, .source .empty (eq_ok_okValue (by rfl)), eq_ok_okValue (by decide +kernel)⟩

/-- A field without arguments. -/
def select (name : String) (directives : List Directive) (items : List Syntax.Selection) :
    Syntax.Selection :=
  .field ⟨none, name, [], directives, here⟩ here items

/-- A query that has only these selections. -/
def query (items : List Syntax.Selection) : ExecutableDefinition :=
  .operation ⟨.query, none, [], [], ⟨here, items⟩, here, true⟩

/-- A fragment on nodes. -/
def fragment (name : String) (items : List Syntax.Selection) : ExecutableDefinition :=
  .fragment ⟨name, "Node", [], ⟨here, items⟩, here⟩

/-- Two levels of links, with a fragment on both that is deferred on the upper one. -/
def definitions : ExecutableDocument :=
  [query [select "next" [] [select "next" [] [.spread ⟨"Rest", [], here⟩],
      .spread ⟨"Rest", [⟨"defer", [], here⟩], here⟩]],
   fragment "Rest" [select "next" [] [select "__typename" [] []]]]

def document : Document := okValue (Document.build none definitions) (by decide +kernel)

theorem document_built : document.Built := ⟨none, definitions, eq_ok_okValue (by decide +kernel)⟩

def fragments : FragmentIndex := okValue (FragmentIndex.build document) (by decide +kernel)

/-- Reverses all selections, and puts the link of the fragment in place of another one. -/
def pipeline : Pipeline Journal :=
  (Pipeline.empty.withOptimizer (Rule.optimizer ⟨none, none, .edit .reverse⟩)).withOptimizer
    (Rule.optimizer ⟨none, some ["next"], .insert (.node ⟨3⟩) none none⟩)

theorem pipeline_lawful : pipeline.Lawful :=
  (Pipeline.passive_empty.lawful.withOptimizer (Rule.lawful_optimizer _)).withOptimizer
    (Rule.lawful_optimizer _)

def input : CompileInput Journal := ⟨schema, document, fragments, pipeline⟩

theorem isTree_linked : ∃ p memory, input.compileWithin 10 none [] = (.ok p, memory) ∧
    p.root ∉ p.childKeys ∧ p.childKeys.Nodup ∧
      (∀ k, k ∈ p.variants.keys ↔ k = p.root ∨ k ∈ p.childKeys) ∧
      ∀ k ∈ p.variants.keys, VariantMap.Reaches p.variants [p.root] k := by
  obtain ⟨p, memory, h⟩ :=
    exists_eq_ok (x := input.compileWithin 10 none []) (by decide +kernel)
  exact ⟨p, memory, h, CompileInput.isTree_of_compileWithin schema_built document_built
    pipeline_lawful h⟩

end Linked

/-! ## A graft

A graft comes with the key that it has in another plan. If that key is not in use the graft keeps
it, though the synthetic syntax has yet to give it to a copy: then the plan is no tree. -/

/-- A key is handed out twice where a copy gets one that was taken before it was made. -/
theorem CompileState.claim_mem_claimed_iff {σ : Type} {s : CompileState σ} {document : Document}
    {key : SelectionSetId} : (s.claim document key).1 ∈ s.claimed ↔
      key ∈ s.claimed ∧ s.synthetic.nextSelectionSetId ∈ s.claimed := by
  unfold claim
  split
  · rename_i htaken
    exact (and_iff_right htaken).symm
  · rename_i hfree
    exact ⟨fun hmem => absurd hmem hfree, fun hmem => absurd hmem.1 hfree⟩

/-- The selection with a response key below a selection of the root, for a type. -/
def Plan.selectionBelow? (p : Plan) (outer type inner : String) : Option Selection := do
  let set ← p.rootSelectionSet.toOption
  let key ← (← set.selection? outer).selectionSet
  let below ← (p.selectionSet key type).toOption
  below.selection? inner

theorem Plan.exists_of_selectionBelow? {p : Plan} {outer type inner : String} {sel : Selection}
    (h : p.selectionBelow? outer type inner = some sel) :
    ∃ key below, p.selectionSet key type = .ok below ∧ sel ∈ below.selections := by
  obtain ⟨_, -, h⟩ := Option.bind_eq_some_iff.1 h
  obtain ⟨_, -, h⟩ := Option.bind_eq_some_iff.1 h
  obtain ⟨key, -, h⟩ := Option.bind_eq_some_iff.1 h
  obtain ⟨below, hbelow, h⟩ := Option.bind_eq_some_iff.1 h
  exact ⟨key, below, eq_ok_of_toOption hbelow, List.mem_of_find?_eq_some h⟩

namespace Grafted

open Syntax Linked

/-- Users with friends and pets. -/
def types : SchemaDocument :=
  let field (name type : String) : FieldDefinition := ⟨name, .named type, [], none, here⟩
  let name := field "name" "String"
  [.type ⟨"Query", none, .object [] [field "me" "User", field "you" "User"], here⟩,
   .type ⟨"User", none, .object [] [name, field "friend" "User", field "pet" "Pet"], here⟩,
   .type ⟨"Pet", none, .interface [] [name], here⟩,
   .type ⟨"Cat", none, .object ["Pet"] [name], here⟩,
   .type ⟨"Dog", none, .object ["Pet"] [name], here⟩]

def builder : Except SchemaError SchemaBuilder :=
  (SchemaBuilder.empty.nameSource none).2.addDocument (SchemaBuilder.empty.nameSource none).1
    types

def loaded : SchemaBuilder := okValue builder (by rfl)

def schema : Schema := okValue loaded.build (by decide +kernel)

theorem schema_built : schema.Built :=
  ⟨loaded, .source .empty (eq_ok_okValue (by rfl)), eq_ok_okValue (by decide +kernel)⟩

/-- Two users whose friends stand in one fragment, so that the key of those of the second is that of
a copy. -/
def stock : ExecutableDocument :=
  [query [select "me" [] [.spread ⟨"Friend", [], here⟩],
      select "you" [] [.spread ⟨"Friend", [], here⟩]],
   .fragment ⟨"Friend", "User", [], ⟨here, [select "friend" [] [select "name" [] []]]⟩, here⟩]

/-- One pet under four names, the last of which has the key that the copy will get. -/
def donor : ExecutableDocument :=
  let pet (key : String) : Syntax.Selection :=
    .field ⟨some key, "pet", [], [], here⟩ here [select "name" [] []]
  [query [select "me" [] [pet "p", pet "q", pet "r", pet "x"]]]

def stockDocument : Document := okValue (Document.build none stock) (by decide +kernel)

theorem stockDocument_built : stockDocument.Built :=
  ⟨none, stock, eq_ok_okValue (by decide +kernel)⟩

def stockFragments : FragmentIndex :=
  okValue (FragmentIndex.build stockDocument) (by decide +kernel)

theorem stockFragments_eq : FragmentIndex.build stockDocument = .ok stockFragments :=
  eq_ok_okValue _

def donorDocument : Document := okValue (Document.build none donor) (by decide +kernel)

def donorFragments : FragmentIndex :=
  okValue (FragmentIndex.build donorDocument) (by decide +kernel)

/-- Puts the last pet of the second operation below the first user. -/
def input : CompileInput Unit where
  schema := schema
  document := stockDocument
  fragments := stockFragments
  pipeline := Pipeline.empty.withFieldOptimizer "Query" "me" <|
    Optimizer.grafting donorDocument donorFragments (·.selectionBelow? "me" "User" "x") ["me"]

end Grafted

end QueryPlan
