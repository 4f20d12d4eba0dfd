import QueryPlan.Proofs.Plan.Unrevised

/-!
# Places of a response

A place of a response is where values of one type stand, after the same response keys and types
on the way down. Documents are validated so that the nodes which some request could select at a
place under one key are of one field. `Placed` ties what a selection set is made from to a place:
whatever a reading collects in its sources, the reading selects there. This holds at the root, and
goes on from a selection set to its deferred fragments and to the sets below its selections.
-/

set_option autoImplicit false

namespace QueryPlan

variable {σ : Type}

namespace Document

variable {d : Document}

/-! Without synthetic syntax, all nodes in view are those of the document. -/

theorem mem_of_atIndex? {α : Type} {base index : Nat} {items : Array α} {x : α}
    (h : SyntaxArena.atIndex? base items index = some x) : x ∈ items :=
  Array.mem_of_getElem? (SyntaxArena.atIndex?_eq_some_iff.1 h).2

theorem mem_fields_of_view {id : FieldId} {node : FieldNode} (h : d.view.field? id = some node) :
    node ∈ d.syntaxArena.fields := by
  rw [SyntaxView.field?, Option.orElse_eq_orElse, Option.orElse_eq_or] at h
  rcases Option.or_eq_some_iff.1 h with h | ⟨-, h⟩
  · exact mem_of_atIndex? h
  · exact absurd (mem_of_atIndex? h) (by simp [view, SyntaxArena.syntheticAfter])

theorem mem_spreads_of_view {id : SpreadId} {node : SpreadNode}
    (h : d.view.spread? id = some node) : node ∈ d.syntaxArena.spreads := by
  rw [SyntaxView.spread?, Option.orElse_eq_orElse, Option.orElse_eq_or] at h
  rcases Option.or_eq_some_iff.1 h with h | ⟨-, h⟩
  · exact mem_of_atIndex? h
  · exact absurd (mem_of_atIndex? h) (by simp [view, SyntaxArena.syntheticAfter])

theorem mem_inlineFragments_of_view {id : InlineFragmentId} {node : InlineFragmentNode}
    (h : d.view.inlineFragment? id = some node) : node ∈ d.syntaxArena.inlineFragments := by
  rw [SyntaxView.inlineFragment?, Option.orElse_eq_orElse, Option.orElse_eq_or] at h
  rcases Option.or_eq_some_iff.1 h with h | ⟨-, h⟩
  · exact mem_of_atIndex? h
  · exact absurd (mem_of_atIndex? h) (by simp [view, SyntaxArena.syntheticAfter])

end Document

namespace Setting

/-- The field nodes that are collected at a place of a response. -/
def Selects (g : Setting) (keep : List DirectiveNode → Bool) (rootType : ObjectType)
    (root : SelectionSetId) (path : ResponsePath) (t : ObjectType) (node : FieldNode) : Prop :=
  ∃ set, g.At keep rootType root path t set ∧ g.Collects keep t (g.view.selectionsOf set) node

/-- Wherever some request could select two nodes under one response key, they name the same
field. Documents are validated for this before they are compiled. -/
def NamesAgree (g : Setting) (rootType : ObjectType) (root : SelectionSetId) : Prop :=
  ∀ ⦃path t set set' node node'⦄,
    g.At (fun _ => true) rootType root path t set →
    g.At (fun _ => true) rootType root path t set' →
    g.Collects (fun _ => true) t (g.view.selectionsOf set) node →
    g.Collects (fun _ => true) t (g.view.selectionsOf set') node' →
    node.responseKey = node'.responseKey → node.name = node'.name

/-- Wherever some request could select two nodes under one response key, they name the same
field, and both or none of them have sub-selections. Documents are validated for this as well. -/
def NodesAgree (g : Setting) (rootType : ObjectType) (root : SelectionSetId) : Prop :=
  ∀ ⦃path t node node'⦄,
    g.Selects (fun _ => true) rootType root path t node →
    g.Selects (fun _ => true) rootType root path t node' →
    node.responseKey = node'.responseKey →
    node.name = node'.name ∧ node.selectionSet.isSome = node'.selectionSet.isSome

variable {g : Setting} {keep keep' : List DirectiveNode → Bool} {rootType t t' : ObjectType}
  {root set set' : SelectionSetId} {path : ResponsePath}

/-- At a place of a response stands one type. -/
theorem At.type_unique (hschema : g.schema.WellNamed) (h : g.At keep rootType root path t set)
    (h' : g.At keep' rootType root path t' set') : t = t' := by
  cases h with
  | root =>
      cases h' with
      | root => rfl
  | step _ _ _ _ ht =>
      generalize hpath : (_ :: _ : ResponsePath) = path' at h'
      cases h' with
      | root => cases hpath
      | step _ _ _ _ ht' =>
          -- the path says by which name the type is found
          have hname : t.name = t'.name := congrArg (fun e => e.2) (List.cons.inj hpath).1
          have h₁ := hschema.objectType?_of_possible ht
          have h₂ := hschema.objectType?_of_possible ht'
          rw [hname, h₂, Option.some_inj] at h₁
          exact h₁.symm

theorem at_root_iff : g.At keep rootType root [] t set ↔ t = rootType ∧ set = root := by
  constructor
  · intro h
    cases h
    exact ⟨rfl, rfl⟩
  · rintro ⟨rfl, rfl⟩
    exact .root

theorem NodesAgree.namesAgree (h : g.NodesAgree rootType root) : g.NamesAgree rootType root :=
  fun _ _ _ _ _ _ hat hat' hcollects hcollects' hkey =>
    (h ⟨_, hat, hcollects⟩ ⟨_, hat', hcollects'⟩ hkey).1

/-- Nodes agree where all nodes of the document do that have the same response key. -/
theorem nodesAgree_of_fields {schema : Schema} {fragments : FragmentIndex} {d : Document}
    (h : ∀ a ∈ d.syntaxArena.fields, ∀ b ∈ d.syntaxArena.fields,
      a.responseKey = b.responseKey →
      a.name = b.name ∧ a.selectionSet.isSome = b.selectionSet.isSome)
    (rootType : ObjectType) (root : SelectionSetId) :
    NodesAgree ⟨schema, fragments, d.view⟩ rootType root := by
  have hmem : ∀ {t sels node},
      Setting.Collects ⟨schema, fragments, d.view⟩ (fun _ => true) t sels node →
        node ∈ d.syntaxArena.fields := by
    intro t sels node hcollects
    induction hcollects with
    | field _ hn _ => exact Document.mem_fields_of_view hn
    | fragment _ _ _ _ ih => exact ih
  rintro path t node node' ⟨set, -, hcollects⟩ ⟨set', -, hcollects'⟩ hkey
  exact h node (hmem hcollects) node' (hmem hcollects') hkey

end Setting

namespace CompileInput

variable {input : CompileInput σ} {rootType : ObjectType} {root : SelectionSetId}
  {path : Setting.ResponsePath}

/-- What a reading collects in the sources of a task is selected at a place of a response. -/
structure Placed (input : CompileInput σ) (r : Reading) (rootType : ObjectType)
    (root : SelectionSetId) (path : Setting.ResponsePath) (task : BuildTask σ) : Prop where
  has : ∀ c ∈ task.sources, input.document.Has c.selectionSet
  selects : ∀ c ∈ task.sources, r.holds (some c.clause) = true → ∀ node,
    input.setting.Collects r.keep task.objectType
      (input.setting.view.selectionsOf c.selectionSet) node →
    input.setting.Selects r.keep rootType root path task.objectType node

/-- The sources of the root stand at the root. -/
theorem placed_root {r : Reading} (hroot : input.document.Has root) :
    input.Placed r rootType root [] (input.rootTask root rootType) := by
  refine ⟨fun c hc => ?_, fun c hc _ node hcollects => ?_⟩
  · rw [List.mem_singleton.1 hc]
    exact hroot
  · rw [List.mem_singleton.1 hc] at hcollects
    exact ⟨root, .root, hcollects⟩

/-- A source below comes from an occurrence that can be reached. -/
theorem mem_subTask_sources {task : BuildTask σ} {os : List FoundField} {key : String}
    {field : Field} {t : ObjectType} {c : ClausedSet} :
    c ∈ (input.subTask task os key field t).sources ↔
      ∃ o ∈ os, o.clause = some c.clause ∧ o.node.selectionSet = some c.selectionSet := by
  rw [subTask, List.mem_filterMap]
  refine exists_congr fun o => and_congr_right fun _ => ?_
  rcases c with ⟨set, clause⟩
  simp only [FoundField.source?, Option.bind_eq_some_iff, Option.map_eq_some_iff,
    ClausedSet.mk.injEq]
  constructor
  · rintro ⟨cl, hcl, inner, hinner, rfl, rfl⟩
    exact ⟨hcl, hinner⟩
  · rintro ⟨hcl, hinner⟩
    exact ⟨clause, hcl, set, hinner, rfl, rfl⟩

section Level

variable {task : BuildTask σ} {answers : Bool → Prop} {fs : List Found} {r : Reading}

/-- An occurrence that a reading reaches is selected at the place. -/
theorem Placed.occurrence (h : input.Placed r rootType root path task)
    (hfs : input.setting.FlattensAll task.objectType answers task.sources fs) {key : String}
    {o : FoundField} (ho : o ∈ occurrencesAt key fs) (hholds : r.holds o.clause = true) :
    input.setting.Selects r.keep rootType root path task.objectType o.node := by
  have hbrings : ∃ f ∈ fs, f.Brings input.setting r task.objectType o.node :=
    ⟨_, (mem_occurrencesAt.1 ho).1, rfl, hholds⟩
  obtain ⟨c, hc, hclause, hcollects⟩ := (hfs.brings_iff _ _).1 hbrings
  exact h.selects c hc hclause o.node hcollects

/-- The occurrences of one key are of one field. -/
theorem Placed.field_eq (h : input.Placed .static rootType root path task)
    (hagree : input.setting.NamesAgree rootType root)
    (hfs : input.setting.FlattensAll task.objectType answers task.sources fs) {key : String}
    {o o' : FoundField} (ho : o ∈ occurrencesAt key fs) (ho' : o' ∈ occurrencesAt key fs) :
    o.field = o'.field ∧ task.objectType.field? o'.node.name = some o.field := by
  obtain ⟨source, hat, hcollects⟩ := h.occurrence hfs ho rfl
  obtain ⟨source', hat', hcollects'⟩ := h.occurrence hfs ho' rfl
  have hname : o.node.name = o'.node.name := hagree hat hat' hcollects hcollects'
    ((mem_occurrencesAt.1 ho).2.trans (mem_occurrencesAt.1 ho').2.symm)
  -- one name looks up one field
  have hf := (hfs.field_mem (mem_occurrencesAt.1 ho).1).2
  have hf' := (hfs.field_mem (mem_occurrencesAt.1 ho').1).2
  rw [hname] at hf
  exact ⟨Option.some.inj (hf.symm.trans hf'), hf⟩

/-- A selection has the field of each of its occurrences. -/
theorem Placed.selection_field (h : input.Placed .static rootType root path task)
    (hagree : input.setting.NamesAgree rootType root) {variants : VariantMap}
    {below : BuildTask σ → SelectionSet → Prop} {set : SelectionSet}
    (hspelled : input.Spelled variants below task answers fs set) {s : Selection}
    (hs : s ∈ set.selections) {o : FoundField} (ho : o ∈ occurrencesAt s.responseKey fs) :
    task.objectType.field? o.node.name = some s.field := by
  obtain ⟨first, os, hocc, hof⟩ := hspelled.selection s hs
  have hfirst : first ∈ occurrencesAt s.responseKey fs := hocc ▸ List.mem_cons_self
  rw [hof.field]
  exact (h.field_eq hagree hspelled.flattens hfirst ho).2

/-- A deferred fragment that a reading reaches stands at the place where it was found. -/
theorem Placed.deferral (h : input.Placed r rootType root path task)
    (hfs : input.setting.FlattensAll task.objectType answers task.sources fs)
    (hwithin : ∀ f ∈ fs, f.Within input.document) {d : PendingDeferral}
    (hd : .deferral d ∈ fs) (hholds : r.holds (some d.clause) = true) :
    input.Placed r rootType root path (task.deferral d) := by
  refine ⟨fun c hc => ?_, fun c hc _ node hcollects => ?_⟩
  · rw [List.mem_singleton.1 hc]
    exact hwithin _ hd
  · rw [List.mem_singleton.1 hc] at hcollects
    have hbrings : ∃ f ∈ fs, f.Brings input.setting r task.objectType node :=
      ⟨_, hd, hholds, hcollects⟩
    obtain ⟨c', hc', hclause, hcollects'⟩ := (hfs.brings_iff _ _).1 hbrings
    exact h.selects c' hc' hclause node hcollects'

/-- The sub-selections under a key stand at the place below. -/
theorem Placed.sub (hdocument : input.document.Closed)
    (h : input.Placed r rootType root path task)
    (hstatic : input.Placed .static rootType root path task)
    (hagree : input.setting.NamesAgree rootType root)
    (hfs : input.setting.FlattensAll task.objectType answers task.sources fs)
    (hwithin : ∀ f ∈ fs, f.Within input.document) {key : String} {o : FoundField}
    {os : List FoundField} (hocc : occurrencesAt key fs = o :: os) {t : ObjectType}
    (ht : t ∈ input.schema.possibleTypes o.field.type.innermost) :
    input.Placed r rootType root ((key, t.name) :: path)
      (input.subTask task (o :: os) key o.field t) := by
  refine ⟨fun c hc => ?_, fun c hc hclause node hcollects => ?_⟩
  · obtain ⟨o', ho', -, hinner⟩ := mem_subTask_sources.1 hc
    rw [← hocc] at ho'
    exact hdocument.has_of_field (hwithin _ (mem_occurrencesAt.1 ho').1) hinner
  · obtain ⟨o', ho', hclause', hinner⟩ := mem_subTask_sources.1 hc
    rw [← hocc] at ho'
    rw [← hclause'] at hclause
    obtain ⟨source, hat, hcollects'⟩ := h.occurrence hfs ho' hclause
    -- the field is that of the first occurrence, so the types are those that it can have
    have hfield := (hstatic.field_eq hagree hfs (hocc ▸ List.mem_cons_self) ho').2
    have hbelow := Setting.At.step hat hcollects' hfield hinner ht
    rw [(mem_occurrencesAt.1 ho').2] at hbelow
    exact ⟨c.selectionSet, hbelow, hcollects⟩

end Level

end CompileInput

end QueryPlan
