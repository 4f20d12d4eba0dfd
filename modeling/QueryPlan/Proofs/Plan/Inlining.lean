import QueryPlan.Proofs.Plan.Corresponding
import QueryPlan.Proofs.Plan.Matching

/-!
# A spread means what it stands for

Several spreads of a fragment share its nodes, while each has nodes of its own once they are
written out. Selections that match come to the same (`Setting.corresponds_of_matches`): what is
found in sources that match corresponds one to one, so the deferred fragments and the
sub-selections are built from sources that match again.
-/

set_option autoImplicit false

namespace QueryPlan

variable {σ : Type}

/-! ## What was found under a key -/

section Found

variable {g g' : Setting} {fs fs' : List Found}

theorem occurrencesAt_matches (h : List.Forall₂ (Found.Matches g g') fs fs') (key : String) :
    List.Forall₂ (FoundField.Matches g g') (occurrencesAt key fs) (occurrencesAt key fs') := by
  refine List.rel_filterMap (fun f f' hf => ?_) h
  cases hf with
  | deferral _ => exact .none
  | field ho =>
      rw [Found.fieldAt?, Found.fieldAt?, ← ho.resembles.responseKey]
      split
      · exact .some ho
      · exact .none

theorem deferrals_matches (h : List.Forall₂ (Found.Matches g g') fs fs') :
    List.Forall₂ (PendingDeferral.Matches g g') (fs.filterMap Found.deferral?)
      (fs'.filterMap Found.deferral?) := by
  refine List.rel_filterMap (fun f f' hf => ?_) h
  cases hf with
  | deferral hd => exact .some hd
  | field _ => exact .none

/-- The response keys are the same, in the same order. -/
theorem keys_mergeAll_eq (h : List.Forall₂ (Found.Matches g g') fs fs') {c c' : Collected}
    (hkeys : c.fields.keys = c'.fields.keys) :
    (c.mergeAll fs).fields.keys = (c'.mergeAll fs').fields.keys := by
  induction h generalizing c c' with
  | nil => exact hkeys
  | cons hf _ ih =>
      refine ih ?_
      cases hf with
      | deferral _ => exact hkeys
      | field ho =>
          have hkey := ho.resembles.responseKey
          dsimp only at hkey
          rw [Collected.merge, Collected.merge, OrderedMap.keys_insert, OrderedMap.keys_insert,
            hkeys, hkey]

/-- Occurrences that match bring the same clauses. -/
theorem condition_ofFound_eq {o o' : FoundField} {os os' : List FoundField}
    (h : List.Forall₂ (FoundField.Matches g g') (o :: os) (o' :: os')) :
    (CollectedField.ofFound o os).condition = (CollectedField.ofFound o' os').condition := by
  have hclauses : (o :: os).map (·.clause) = (o' :: os').map (·.clause) :=
    map_eq_of_forall₂ h fun _ _ ho => ho.clause
  have hfilter : ∀ xs : List FoundField,
      xs.filterMap (·.clause) = (xs.map (·.clause)).filterMap id := fun xs => by
    rw [List.filterMap_map]
    rfl
  rw [CollectedField.ofFound, CollectedField.ofFound, hfilter, hfilter, hclauses]

/-- Occurrences that match have sub-selections that match. -/
theorem sources_matches {os os' : List FoundField}
    (h : List.Forall₂ (FoundField.Matches g g') os os') :
    List.Forall₂ (g.MatchesSource g') (os.filterMap (·.source?)) (os'.filterMap (·.source?)) := by
  refine List.rel_filterMap (fun o o' ho => ?_) h
  have hinner := ho.resembles.inner
  have hbelow := ho.below
  rw [Setting.below, Setting.below] at hbelow
  rw [FoundField.source?, FoundField.source?, ← ho.clause]
  cases o.clause with
  | none => exact .none
  | some c =>
      generalize o.node.selectionSet = set, o'.node.selectionSet = set' at hinner hbelow
      cases set with
      | none =>
          cases set' with
          | none => exact .none
          | some set' => cases hinner
      | some set =>
          cases set' with
          | none => cases hinner
          | some set' => exact .some ⟨rfl, hbelow⟩

end Found

/-- Sources that match come to the same. -/
theorem Setting.corresponds_of_matches {g g' : Setting} (hschema : g.schema = g'.schema) :
    g.Corresponds g' (List.Forall₂ (g.MatchesSource g')) where
  schema := hschema
  found hm hfs hfs' := by
    obtain ⟨fs'', hfs'', hall⟩ := flattensAll_of_matches hschema hm hfs
    rw [hfs''.unique (fun _ h => absurd h (by decide)) hfs'] at hall
    refine ⟨keys_mergeAll_eq hall rfl, fun {key o os o' os'} hocc hocc' => ?_,
      (deferrals_matches hall).imp fun d d' hd =>
        ⟨hd.directive, hd.clause, hd.typeCondition, .cons ⟨rfl, hd.selectionSet⟩ .nil⟩⟩
    have hos := occurrencesAt_matches hall key
    rw [hocc, hocc'] at hos
    obtain ⟨ho, -⟩ := List.forall₂_cons.1 hos
    exact ⟨ho.field, ho.resembles.arguments, ho.resembles.inner, condition_ofFound_eq hos,
      sources_matches hos⟩
  readable hm hread c' hc' := by
    obtain ⟨c, hc, -, hset⟩ := exists_of_mem_right hm hc'
    exact Matches.readable hschema hset (hread c hc)
  readable' hm hread c hc := by
    obtain ⟨c', hc', -, hset⟩ := exists_of_mem_left hm hc
    exact Matches.readable hschema.symm hset.symm (hread c' hc')

/-! ## Documents without spreads -/

section Inlined

open Syntax

variable {file : Option String} {definitions definitions' : ExecutableDocument} {d d' : Document}
  {schema : Schema} {fragments fragments' : FragmentIndex}

theorem VariableNode.texts_eq {vs ws : List VariableNode} {xs : List VariableDefinition}
    (hv : List.Forall₂ (fun v x => v.name = x.name ∧ v.type = .ofTypeRef x.type ∧
      v.default = x.default) vs xs)
    (hw : List.Forall₂ (fun w x => w.name = x.name ∧ w.type = .ofTypeRef x.type ∧
      w.default = x.default) ws xs) : vs.map VariableNode.text = ws.map VariableNode.text := by
  refine map_eq_of_forall₂ (forall₂_comp hv hw.flip) ?_
  rintro v w ⟨x, ⟨hname, htype, hdefault⟩, hname', htype', hdefault'⟩
  rw [text, text, hname, htype, hdefault, hname', htype', hdefault']

/-- Operations keep their heads when their spreads are written out. -/
theorem Document.StoresOperation.head_eq {node node' : OperationNode} {o : OperationDefinition}
    {s : Syntax.SelectionSet} (h : d.StoresOperation node o)
    (h' : d'.StoresOperation node' { o with selectionSet := s }) : node.head = node'.head := by
  have htexts := VariableNode.texts_eq h.variableDefinitions h'.variableDefinitions
  have hempty : node.variableDefinitions.isEmpty = node'.variableDefinitions.isEmpty := by
    rw [← List.isEmpty_map (f := VariableNode.text), htexts, List.isEmpty_map]
  rw [OperationNode.head, OperationNode.head, h.kind, h'.kind, h.name, h'.name, htexts, hempty]

/-- The operations of a document match what is left of them when their spreads are written
out. -/
theorem Syntax.ExecutableDocument.Inlines.operations_matches
    (h : definitions.Inlines definitions') (hs : d.Stores definitions)
    (hs' : d'.Stores definitions') (hindex : FragmentIndex.build d = .ok fragments) :
    List.Forall₂ (OperationNode.Corresponds (List.Forall₂
        (Setting.MatchesSource ⟨schema, fragments, d.view⟩ ⟨schema, fragments', d'.view⟩)))
      d.operations d'.operations := by
  refine (forall₂_comp (forall₂_comp hs.operations h.parts.1) hs'.operations.flip).imp ?_
  rintro node node' ⟨_, ⟨o, hnode, items, hitems, rfl⟩, hnode'⟩
  refine ⟨hnode.name.trans hnode'.name.symm, hnode.kind.trans hnode'.kind.symm,
    hnode.head_eq hnode', .cons ⟨rfl, ?_⟩ .nil⟩
  obtain ⟨set, hset, hstores⟩ := hnode.selectionSet
  obtain ⟨set', hset', hstores'⟩ := hnode'.selectionSet
  rw [Setting.MatchesSet, Document.selectionsOf_view hset, Document.selectionsOf_view hset']
  exact hitems.matches (fun f hf => FragmentIndex.resolved_of_mem hs hindex hf) hstores hstores'

/-- **A spread means exactly its body written in place.** In every document that can be indexed
and that spreads defined fragments only, all spreads can be written out. What comes out spreads
nothing and can be indexed again, and under every schema each of its operations compiles without
optimizers exactly if the original one does, to a plan that prints the same text and has as many
selections. -/
theorem compile_inlined (hschema : schema.Built)
    (hd : Document.build file definitions = .ok d)
    (hindex : FragmentIndex.build d = .ok fragments)
    (hdefined : definitions.spreadNames ⊆ definitions.fragmentNames) :
    (∃ definitions', definitions.Inlines definitions') ∧
    ∀ definitions', definitions.Inlines definitions' →
      definitions'.spreadNames = [] ∧
      ∃ d' fragments', Document.build file definitions' = .ok d' ∧
        FragmentIndex.build d' = .ok fragments' ∧
        ∀ (name : Option String) (memory : σ),
          ((∃ p m, CompileInput.compile ⟨schema, d, fragments, .empty⟩ name memory = (.ok p, m)) ↔
            ∃ p m,
              CompileInput.compile ⟨schema, d', fragments', .empty⟩ name memory = (.ok p, m)) ∧
          ∀ p p' m m',
            CompileInput.compile ⟨schema, d, fragments, .empty⟩ name memory = (.ok p, m) →
            CompileInput.compile ⟨schema, d', fragments', .empty⟩ name memory = (.ok p', m') →
            p.print = p'.print ∧ p.selectionCount = p'.selectionCount := by
  obtain ⟨order, horder⟩ := FragmentIndex.exists_order_of_spreads hd hindex
  refine ⟨ExecutableDocument.exists_inlines_of_order horder hdefined, fun definitions' h =>
    ⟨h.spreadNames_eq_nil, ?_⟩⟩
  obtain ⟨d', hd'⟩ := Document.exists_build_inlined hd h
  obtain ⟨fragments', hindex'⟩ := FragmentIndex.exists_index_inlined hd hindex h hd'
  refine ⟨d', fragments', hd', hindex', fun name memory => ?_⟩
  let input : CompileInput σ := ⟨schema, d, fragments, .empty⟩
  let input' : CompileInput σ := ⟨schema, d', fragments', .empty⟩
  have hplain : input.Plain := ⟨⟨file, definitions, hd⟩, hindex, rfl⟩
  have hplain' : input'.Plain := ⟨⟨file, definitions', hd'⟩, hindex', rfl⟩
  have hoperations : List.Forall₂ (OperationNode.Corresponds (List.Forall₂
      (input.setting.MatchesSource input'.setting))) d.operations d'.operations :=
    h.operations_matches (Document.stored_of_build hd) (Document.stored_of_build hd') hindex
  exact CompileInput.compile_corresponds hplain hplain' hschema
    (Setting.corresponds_of_matches rfl) hoperations name memory

end Inlined

namespace Linked

open Syntax

/-- What stands for a spread of the fragment on nodes. -/
def rest (directives : List Directive) : Syntax.Selection :=
  .inlineFragment ⟨some "Node", directives, here⟩ here
    [select "next" [] [select "__typename" [] []]]

/-- The same query and fragment, without spreads. -/
def unspread : ExecutableDocument :=
  [query [select "next" [] [select "next" [] [rest []], rest [⟨"defer", [], here⟩]]],
   fragment "Rest" [select "next" [] [select "__typename" [] []]]]

theorem inlines_unspread : definitions.Inlines unspread := by
  have hbody : Selection.Inlines definitions [select "next" [] [select "__typename" [] []]]
      [select "next" [] [select "__typename" [] []]] := .field (.field .nil .nil) .nil
  have hspread : ∀ (directives : List Directive) {items items' : List Syntax.Selection},
      Selection.Inlines definitions items items' →
      Selection.Inlines definitions (.spread ⟨"Rest", directives, here⟩ :: items)
        (rest directives :: items') := fun directives {_ _} hitems =>
    .spread (f := ⟨"Rest", "Node", [], ⟨here, [select "next" [] [select "__typename" [] []]]⟩, here⟩)
      (List.mem_singleton_self _) rfl hbody hitems
  refine .cons (.operation ⟨_, .field (.field ?_ (hspread _ .nil)) .nil, rfl⟩)
    (.cons (.fragment ⟨_, hbody, rfl⟩) .nil)
  exact hspread [] .nil

theorem compile_unspread : ∃ d' fragments', Document.build none unspread = .ok d' ∧
    FragmentIndex.build d' = .ok fragments' ∧
    ∃ p p' m m', CompileInput.compile ⟨schema, document, fragments, .empty⟩ none () = (.ok p, m) ∧
      CompileInput.compile ⟨schema, d', fragments', .empty⟩ none () = (.ok p', m') ∧
      p.print = p'.print ∧ p.selectionCount = p'.selectionCount := by
  have hbuild : Document.build none definitions = .ok document := eq_ok_okValue _
  have hdefined : definitions.spreadNames ⊆ definitions.fragmentNames := by decide
  obtain ⟨-, hall⟩ := compile_inlined (σ := Unit) schema_built hbuild fragments_eq hdefined
  obtain ⟨-, d', fragments', hd', hindex', hcompile⟩ := hall unspread inlines_unspread
  obtain ⟨hiff, hsame⟩ := hcompile none ()
  obtain ⟨p, m, hp⟩ := exists_eq_ok
    (x := CompileInput.compile ⟨schema, document, fragments, .empty⟩ none ()) (by decide +kernel)
  obtain ⟨p', m', hp'⟩ := hiff.1 ⟨p, m, hp⟩
  exact ⟨d', fragments', hd', hindex', p, p', m, m', hp, hp', hsame p p' m m' hp hp'⟩

end Linked

end QueryPlan
