import QueryPlan.Proofs.Document.Reports

/-!
# Conflicts between operations

What is reported of operations can be told from their names and places (`conflicts_eq`): one error
for every operation whose name was taken, in document order and with the places of the first
operation of the name and of itself, and then one for every operation without a name that is not
alone. Lowering keeps names and places, so the errors can be told from the syntax trees.

Where there are no conflicts, no two operations share a name, and each one is found by its name.
-/

set_option autoImplicit false

namespace QueryPlan

open QueryPlan.Syntax

/-! ## Names that are not taken -/

section Repeats

variable {α : Type} {name : α → String}

theorem repeats_eq_nil_iff {items : List α} : repeats name items = [] ↔ (items.map name).Nodup := by
  induction items using List.reverseRecOn with
  | nil => exact iff_of_true rfl List.nodup_nil
  | append_singleton items x ih =>
      have hfree : ((items.find? fun first => name first = name x).map (·, x)).toList = [] ↔
          name x ∉ items.map name := by
        rw [Option.toList_eq_nil_iff, Option.map_eq_none_iff, List.find?_eq_none, List.mem_map]
        simp
      rw [repeats_concat, List.append_eq_nil_iff, ih, hfree, List.map_append, List.map_singleton,
        ← List.concat_eq_append, List.nodup_concat, and_comm]

end Repeats

/-! ## Where operations stand -/

/-- What is reported of an operation: its name, if it has one, and where it stands. -/
def OperationNode.site (node : OperationNode) : Option String × SyntaxLocation :=
  (node.name, node.location)

namespace Syntax

def OperationDefinition.site (file : Option String) (o : OperationDefinition) :
    Option String × SyntaxLocation :=
  (o.name, .source file o.position)

namespace ExecutableDocument

/-- The names of the operations, of those that have one. -/
def operationNames (definitions : ExecutableDocument) : List String :=
  definitions.operations.filterMap (·.name)

/-- The operations that have a name, each by its name and the place where it stands. -/
def namedOperations (definitions : ExecutableDocument) (file : Option String) :
    List (String × SyntaxLocation) :=
  definitions.operations.filterMap fun o => o.name.map (·, .source file o.position)

/-- The places of the operations without a name. -/
def unnamedOperations (definitions : ExecutableDocument) (file : Option String) :
    List SyntaxLocation :=
  (definitions.operations.filter fun o => o.name.isNone).map fun o => .source file o.position

end ExecutableDocument

end Syntax

namespace Document

variable {file : Option String} {definitions : ExecutableDocument} {d : Document}

/-- Lowering keeps the names and the places of operations. -/
theorem operationSites_lower (file : Option String) (definitions : ExecutableDocument) :
    (lower file definitions).operations.map (·.site) =
      definitions.operations.map (·.site file) := by
  have hall : Located file definitions (lower file definitions) ∧
      (lower file definitions).operations.map (·.site) =
        definitions.operations.map (·.site file) := by
    refine lower_induct (P := fun ds d => Located file ds d ∧
      d.operations.map (·.site) = ds.operations.map (·.site file)) ⟨⟨rfl, rfl⟩, rfl⟩ ?_
    rintro before d x ⟨hd, hsites⟩
    refine ⟨hd.addDefinition x, ?_⟩
    rw [ExecutableDocument.operations_append, List.map_append, ← hsites]
    cases x with
    | fragment f => exact (List.append_nil _).symm
    | operation o =>
        -- the operation is located in the arena that its selections were lowered to
        have hset := d.syntaxArena.accounts_lowerSelectionSet o.selectionSet
        have hhere : (d.syntaxArena.lowerSelectionSet o.selectionSet).2.locate o.position =
            .source file o.position := by
          rw [SyntaxArena.locate, hset.origin.trans hd.origin]
        calc (d.addOperation o).operations.map (·.site)
            = d.operations.map (·.site) ++
                [(o.name, (d.syntaxArena.lowerSelectionSet o.selectionSet).2.locate o.position)] :=
              List.map_append
          _ = d.operations.map (·.site) ++ [o.site file] := by
              rw [hhere]
              rfl
  exact hall.2

/-! ## Conflicts -/

/-- The conflicts of operations with these names that stand in these places. -/
def siteConflicts (sites : List (Option String × SyntaxLocation)) : List DocumentError :=
  (repeats Prod.fst (sites.filterMap fun s => s.1.map (·, s.2))).map
      (fun r => .duplicateOperationName r.2.1 r.1.2 r.2.2) ++
    if sites.length ≤ 1 then []
    else (sites.filter fun s => s.1.isNone).map fun s => .anonymousOperationNotAlone s.2

theorem duplicateNames_append (before operations after : List OperationNode) :
    duplicateNames before (operations ++ after) =
      duplicateNames before operations ++ duplicateNames (before ++ operations) after := by
  induction operations generalizing before with
  | nil => rw [List.append_nil]; rfl
  | cons o rest ih =>
      rw [List.cons_append, duplicateNames, duplicateNames, ih, List.append_assoc,
        List.append_assoc, List.singleton_append]

/-- A name is taken by the first operation that has it. -/
theorem find?_namedSites (operations : List OperationNode) (name : String) :
    ((operations.map (·.site)).filterMap fun s => s.1.map (·, s.2)).find? (fun s => s.1 = name) =
      (operations.find? fun o => o.name = some name).map fun o => (name, o.location) := by
  induction operations with
  | nil => rfl
  | cons o rest ih =>
      rw [List.map_cons, List.filterMap_cons]
      cases hname : o.name with
      | none => simpa [OperationNode.site, hname] using ih
      | some name' =>
          by_cases hsame : name' = name
          · simp [OperationNode.site, hname, hsame]
          · simpa [OperationNode.site, hname, hsame] using ih

theorem duplicateNames_eq (operations : List OperationNode) : duplicateNames [] operations =
    (repeats Prod.fst ((operations.map (·.site)).filterMap fun s => s.1.map (·, s.2))).map
      fun r => .duplicateOperationName r.2.1 r.1.2 r.2.2 := by
  induction operations using List.reverseRecOn with
  | nil => rfl
  | append_singleton before o ih =>
      rw [duplicateNames_append, ih, List.nil_append, List.map_append, List.filterMap_append]
      cases hname : o.name with
      | none => simp [duplicateNames, OperationNode.site, hname]
      | some name =>
          have hsite : ([o].map (·.site)).filterMap (fun s => s.1.map (·, s.2)) =
              [(name, o.location)] := by simp [OperationNode.site, hname]
          rw [hsite, repeats_concat, find?_namedSites, List.map_append]
          congr 1
          simp only [duplicateNames, hname]
          cases before.find? fun e => e.name = some name <;> rfl

/-- The names and the places of operations tell their conflicts. -/
theorem conflicts_eq (operations : List OperationNode) :
    conflicts operations = siteConflicts (operations.map (·.site)) := by
  rw [conflicts, siteConflicts, duplicateNames_eq, anonymousBesideOthers, List.length_map,
    List.filter_map, List.map_map]
  rfl

theorem siteConflicts_eq_nil_iff {sites : List (Option String × SyntaxLocation)} :
    siteConflicts sites = [] ↔
      (sites.filterMap Prod.fst).Nodup ∧ (sites.length ≤ 1 ∨ ∀ s ∈ sites, s.1.isSome) := by
  have hnames : (sites.filterMap fun s => s.1.map (·, s.2)).map Prod.fst =
      sites.filterMap Prod.fst := by
    rw [List.map_filterMap]
    exact List.filterMap_congr fun s _ => by cases s.1 <;> rfl
  rw [siteConflicts, List.append_eq_nil_iff, List.map_eq_nil_iff, repeats_eq_nil_iff, hnames]
  refine and_congr_right fun _ => ?_
  by_cases hlength : sites.length ≤ 1
  · simp [hlength]
  · simp [hlength, List.filter_eq_nil_iff, Option.isSome_iff_ne_none]

/-! ## Choosing an operation -/

/-- Where names are distinct, an operation is found by its name. -/
theorem operation_of_mem (h : (d.operations.filterMap (·.name)).Nodup) {o : OperationNode}
    (ho : o ∈ d.operations) {name : String} (hname : o.name = some name) :
    d.operation (some name) = .ok o := by
  rw [operation]
  cases hfind : d.operations.find? fun e => e.name = some name with
  | none => simpa [hname] using List.find?_eq_none.1 hfind o ho
  | some e =>
      have hename : e.name = some name := by simpa using List.find?_some hfind
      have he : e ∈ d.operations := List.mem_of_find?_eq_some hfind
      -- two operations would give the name twice
      have hnames : ((d.operations.filter fun o => o.name.isSome).map (·.name)).Nodup := by
        have hsome := h.map (Option.some_injective _)
        rwa [List.map_filterMap_some_eq_filter_map_isSome, List.filter_map] at hsome
      have hsame : e = o := List.inj_on_of_nodup_map hnames
        (List.mem_filter.2 ⟨he, by simp [hename]⟩) (List.mem_filter.2 ⟨ho, by simp [hname]⟩)
        (hename.trans hname.symm)
      rw [hsame]

theorem operation_of_notMem {name : String} (h : name ∉ d.operations.filterMap (·.name)) :
    d.operation (some name) = .error (.notFound (some name)) := by
  have hnone : d.operations.find? (fun o => o.name = some name) = none :=
    List.find?_eq_none.2 fun o ho => by
      simpa using fun hname => h (List.mem_filterMap.2 ⟨o, ho, hname⟩)
  rw [operation, hnone]

theorem operation_none_iff {o : OperationNode} :
    d.operation none = .ok o ↔ d.operations = [o] := by
  rw [operation]
  match d.operations with
  | [] => simp
  | [_] => simp
  | _ :: _ :: _ => simp

/-! ## Building -/

/-- The errors of a document are the conflicts between its operations. -/
theorem errors_of_build {errors : List DocumentError} (h : build file definitions = .error errors) :
    errors = siteConflicts (definitions.operations.map (·.site file)) := by
  rw [← operationSites_lower, ← conflicts_eq]
  unfold build at h
  dsimp only at h
  split at h
  · cases h
  · cases h
    rfl

/-- A document is built where names are distinct, and given wherever there are several
operations. -/
theorem exists_build_iff : (∃ d, build file definitions = .ok d) ↔
    definitions.operationNames.Nodup ∧
      (definitions.operations.length ≤ 1 ∨ ∀ o ∈ definitions.operations, o.name.isSome) := by
  have hconflicts : (∃ d, build file definitions = .ok d) ↔
      conflicts (lower file definitions).operations = [] := by
    constructor
    · rintro ⟨d, hd⟩
      exact (build_eq_ok_iff.1 hd).2
    · intro h
      exact ⟨_, build_eq_ok_iff.2 ⟨rfl, h⟩⟩
  rw [hconflicts, conflicts_eq, operationSites_lower, siteConflicts_eq_nil_iff, List.filterMap_map,
    List.length_map, List.forall_mem_map]
  rfl

/-- Whether a document is built depends on the names of its operations. -/
theorem exists_build_congr {definitions' : ExecutableDocument}
    (h : definitions.operations.map (·.name) = definitions'.operations.map (·.name)) :
    (∃ d, build file definitions = .ok d) ↔ ∃ d, build file definitions' = .ok d := by
  have hnames : definitions.operationNames = definitions'.operationNames := by
    have hgiven := congrArg (List.filterMap id) h
    rwa [List.filterMap_map, List.filterMap_map] at hgiven
  have hlength : definitions.operations.length = definitions'.operations.length := by
    simpa using congrArg List.length h
  have hsome : ∀ os : List OperationDefinition,
      (∀ o ∈ os, o.name.isSome) ↔ ∀ name ∈ os.map (·.name), name.isSome := fun os => by
    rw [List.forall_mem_map]
  rw [exists_build_iff, exists_build_iff, hnames, hlength, hsome, hsome, h]

/-- The operations of a document have the names that were read. -/
theorem operationNames_of_build (h : build file definitions = .ok d) :
    d.operations.filterMap (·.name) = definitions.operationNames := by
  obtain ⟨rfl, -⟩ := build_eq_ok_iff.1 h
  have hnames := congrArg (List.filterMap Prod.fst) (operationSites_lower file definitions)
  rwa [List.filterMap_map, List.filterMap_map] at hnames

/-- **Conflicts between names are all that is wrong with a document**, and without them every
operation can be chosen. -/
theorem build_iff_distinct (file : Option String) (definitions : ExecutableDocument) :
    ((∃ d, build file definitions = .ok d) ↔ definitions.operationNames.Nodup ∧
      (definitions.operations.length ≤ 1 ∨ ∀ o ∈ definitions.operations, o.name.isSome)) ∧
    (∀ errors, build file definitions = .error errors →
      errors = (repeats Prod.fst (definitions.namedOperations file)).map
          (fun r => .duplicateOperationName r.2.1 r.1.2 r.2.2) ++
        if definitions.operations.length ≤ 1 then []
        else (definitions.unnamedOperations file).map .anonymousOperationNotAlone) ∧
    ∀ d, build file definitions = .ok d →
      d.operations.map (·.site) = definitions.operations.map (·.site file) ∧
      (∀ o ∈ d.operations, ∀ name, o.name = some name → d.operation (some name) = .ok o) ∧
      (∀ name, name ∉ definitions.operationNames →
        d.operation (some name) = .error (.notFound (some name))) ∧
      ∀ o, d.operation none = .ok o ↔ d.operations = [o] := by
  refine ⟨exists_build_iff, fun errors herrors => ?_, fun d hd => ?_⟩
  · rw [errors_of_build herrors, siteConflicts, List.filterMap_map, List.length_map,
      List.filter_map, List.map_map, ExecutableDocument.unnamedOperations, List.map_map]
    rfl
  · have hnodup := (exists_build_iff.1 ⟨d, hd⟩).1
    rw [← operationNames_of_build hd] at hnodup ⊢
    refine ⟨?_, fun o ho name hname => operation_of_mem hnodup ho hname,
      fun name hname => operation_of_notMem hname, fun o => operation_none_iff⟩
    obtain ⟨rfl, -⟩ := build_eq_ok_iff.1 hd
    exact operationSites_lower file definitions

/-- An operation in some line that spreads a fragment. -/
def operationIn (line : Nat) (kind : OperationKind) (name : Option String) : ExecutableDefinition :=
  .operation ⟨kind, name, [], [], ⟨⟨line, 1⟩, [.spread ⟨"F", [], ⟨line, 1⟩⟩]⟩, ⟨line, 1⟩, false⟩

/-- Three operations of one name and another one, of all kinds, with a fragment and two operations
without a name in between. -/
def crowded : ExecutableDocument :=
  [operationIn 1 .query (some "A"), operationIn 2 .query none,
   .fragment ⟨"F", "Node", [], ⟨⟨3, 1⟩, []⟩, ⟨3, 1⟩⟩, operationIn 4 .mutation (some "A"),
   operationIn 5 .query (some "B"), operationIn 6 .subscription none,
   operationIn 7 .subscription (some "A")]

/-- Two operations that can stay together. -/
def paired : ExecutableDocument :=
  [operationIn 1 .query (some "A"), .fragment ⟨"F", "Node", [], ⟨⟨3, 1⟩, []⟩, ⟨3, 1⟩⟩,
   operationIn 5 .mutation (some "B")]

/-- The first is refused for four operations; of the second each operation can be chosen, by its
name only. -/
theorem build_crowded_paired :
    build none crowded =
      .error [.duplicateOperationName "A" (.source none ⟨1, 1⟩) (.source none ⟨4, 1⟩),
        .duplicateOperationName "A" (.source none ⟨1, 1⟩) (.source none ⟨7, 1⟩),
        .anonymousOperationNotAlone (.source none ⟨2, 1⟩),
        .anonymousOperationNotAlone (.source none ⟨6, 1⟩)] ∧
    ∃ d, build none paired = .ok d ∧
      (∃ o, d.operation (some "B") = .ok o ∧ o.location = .source none ⟨5, 1⟩) ∧
      d.operation (some "C") = .error (.notFound (some "C")) ∧ ∀ o, d.operation none ≠ .ok o := by
  constructor
  · obtain ⟨hiff, herrors, -⟩ := build_iff_distinct none crowded
    cases hbuild : build none crowded with
    | ok d =>
        have hnames := (hiff.1 ⟨d, hbuild⟩).1
        exact absurd hnames (by decide +kernel)
    | error errors =>
        refine congrArg Except.error ((herrors errors hbuild).trans ?_)
        decide +kernel
  · obtain ⟨hiff, -, hok⟩ := build_iff_distinct none paired
    obtain ⟨d, hd⟩ := hiff.2 ⟨by decide +kernel, by decide +kernel⟩
    obtain ⟨hsites, hfound, hmissing, hnone⟩ := hok d hd
    refine ⟨d, hd, ?_, hmissing "C" (by decide +kernel), fun o ho => ?_⟩
    · have hmem : (some "B", .source none ⟨5, 1⟩) ∈ d.operations.map (·.site) := by
        rw [hsites]
        decide +kernel
      obtain ⟨o, ho, hsite⟩ := List.mem_map.1 hmem
      obtain ⟨hname, hlocation⟩ := Prod.mk.inj hsite
      exact ⟨o, hfound o ho "B" hname, hlocation⟩
    · have hlength := congrArg List.length hsites
      rw [List.length_map, (hnone o).1 ho] at hlength
      cases hlength

end Document

end QueryPlan
