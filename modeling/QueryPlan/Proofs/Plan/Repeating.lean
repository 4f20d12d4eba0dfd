import QueryPlan.Proofs.Document.Repeated
import QueryPlan.Proofs.Padded
import QueryPlan.Proofs.Plan.Agreement
import QueryPlan.Proofs.Plan.Gathered
import QueryPlan.Proofs.Plan.Inlining

/-!
# Repeating a selection changes nothing

A copy of a selection behind the selection itself brings nothing new: whatever is found in it was
found before. What is found in selections with copies is therefore padded, and so are the
occurrences of each response key, the clauses that they bring, and the sources of what lies below.
Nobody takes notice of padding: the first occurrence says what a field is, a clause that was added
before adds nothing, and padded sources are gone through like the original ones. So a document in
which a selection is repeated compiles as it did (`compile_repeated`).
-/

set_option autoImplicit false

namespace QueryPlan

variable {σ : Type}

theorem optionRel_flip {α β : Type} {R : α → β → Prop} {a : Option α} {b : Option β}
    (h : Option.Rel R a b) : Option.Rel (flip R) b a := by
  cases h with
  | none => exact .none
  | some h => exact .some h

namespace Setting

/-! ## Selections that say the same -/

/-- The selections say the same, each in its setting, and are not deferred; `R` relates the
selection sets below them. -/
inductive Same (g g' : Setting) (R : SelectionSetId → SelectionSetId → Prop) :
    SelectionNode → SelectionNode → Prop
  | field {id id' n n'} :
      g.view.field? id = some n → g'.view.field? id' = some n' → n.Resembles n' →
      Option.Rel R n.selectionSet n'.selectionSet → Same g g' R (.field id) (.field id')
  | fragment {sel sel' u u'} :
      g.Uses sel u → g'.Uses sel' u' → SameDirectives u.directives u'.directives →
      u.typeCondition = u'.typeCondition → DeferDirective.ofDirectives? u.directives = none →
      R u.selectionSet u'.selectionSet → Same g g' R sel sel'
  /-- Both are spreads of fragments that are not defined. -/
  | unknown {id id' n n'} :
      g.view.spread? id = some n → g.fragments.resolve? n.fragmentName = none →
      g'.view.spread? id' = some n' → g'.fragments.resolve? n'.fragmentName = none →
      Same g g' R (.spread id) (.spread id')

end Setting

/-- The occurrences are those of the same field under the same clause. -/
structure FoundField.Like (R : SelectionSetId → SelectionSetId → Prop) (o o' : FoundField) :
    Prop where
  resembles : o.node.Resembles o'.node
  field : o.field = o'.field
  clause : o.clause = o'.clause
  selectionSet : Option.Rel R o.node.selectionSet o'.node.selectionSet

inductive Found.Like (R : SelectionSetId → SelectionSetId → Prop) : Found → Found → Prop
  | field {n n' f c} : FoundField.Like R ⟨n, f, c⟩ ⟨n', f, c⟩ →
      Like R (.field n f c) (.field n' f c)

/-- The sources are reached under the same clause. -/
structure ClausedSet.Like (R : SelectionSetId → SelectionSetId → Prop) (c c' : ClausedSet) :
    Prop where
  clause : c.clause = c'.clause
  selectionSet : R c.selectionSet c'.selectionSet

namespace Setting

variable {g g' : Setting} {R : SelectionSetId → SelectionSetId → Prop} {t : ObjectType}
  {answers : Bool → Prop} {sels sels' : List SelectionNode} {clause : Option Clause}
  {fs fs' : List Found}

/-- A fragment says the same as another one that has the same type condition. -/
theorem Same.uses {sel sel' : SelectionNode} {u : FragmentUse} (h : g.Same g' R sel sel')
    (hu : g.Uses sel u) :
    ∃ u', g'.Uses sel' u' ∧ SameDirectives u.directives u'.directives ∧
      u.typeCondition = u'.typeCondition ∧ DeferDirective.ofDirectives? u.directives = none ∧
      R u.selectionSet u'.selectionSet := by
  cases h with
  | field => cases hu
  | fragment hv hu' hds htc hdefer hR =>
      obtain rfl := hu.unique hv
      exact ⟨_, hu', hds, htc, hdefer, hR⟩
  | unknown hn hnone =>
      cases hu with
      | spread hm hf =>
          rw [hn, Option.some_inj] at hm
          rw [← hm, hnone] at hf
          cases hf

theorem Same.symm {sel sel' : SelectionNode} (h : g.Same g' R sel sel') :
    g'.Same g (flip R) sel' sel := by
  cases h with
  | field hn hn' hsame hR =>
      exact .field hn' hn ⟨hsame.aliasName.symm, hsame.name.symm, hsame.arguments.symm,
        hsame.directives.symm, hsame.inner.symm⟩ (optionRel_flip hR)
  | fragment hu hu' hds htc hdefer hR =>
      exact .fragment hu' hu hds.symm htc.symm (DeferDirective.ofDirectives?_congr hds ▸ hdefer) hR
  | unknown hn hnone hn' hnone' => exact .unknown hn' hnone' hn hnone

/-- Only fields say the same as fields. -/
theorem Same.exists_field {id : FieldId} {n : FieldNode} {sel' : SelectionNode}
    (h : g.Same g' R (.field id) sel') (hn : g.view.field? id = some n) :
    ∃ id' n', sel' = .field id' ∧ g'.view.field? id' = some n' ∧ n.Resembles n' ∧
      Option.Rel R n.selectionSet n'.selectionSet := by
  cases h with
  | field hm hm' hsame hR =>
      rw [hn, Option.some_inj] at hm
      subst hm
      exact ⟨_, _, rfl, hm', hsame, hR⟩
  | fragment hu => cases hu

/-- What is passed over on one side is passed over on the other. -/
theorem Same.passes {sel sel' : SelectionNode} (hschema : g.schema = g'.schema)
    (h : g.Same g' R sel sel') (hp : g.Passes t sel) : g'.Passes t sel' := by
  cases h with
  | field hn =>
      cases hp with
      | noField hm =>
          rw [hn] at hm
          cases hm
  | fragment hu hu' _ htc _ _ =>
      have hp' := hu.passes_iff.1 hp
      rw [htc, hschema] at hp'
      exact hu'.passes_iff.2 hp'
  | unknown hn hnone =>
      cases hp with
      | spread hm hf =>
          rw [hn, Option.some_inj] at hm
          rw [← hm, hnone] at hf
          cases hf
      | noSpread hm =>
          rw [hn] at hm
          cases hm

/-- What is opened on one side is opened on the other. -/
theorem Same.opens {sel sel' : SelectionNode} {u : FragmentUse} (hschema : g.schema = g'.schema)
    (h : g.Same g' R sel sel') (ho : g.Opens t sel u) :
    ∃ u', g'.Opens t sel' u' ∧ SameDirectives u.directives u'.directives ∧
      DeferDirective.ofDirectives? u.directives = none ∧ R u.selectionSet u'.selectionSet := by
  obtain ⟨hu, hmeets⟩ := opens_iff.1 ho
  obtain ⟨u', hu', hds, htc, hdefer, hR⟩ := h.uses hu
  rw [htc, hschema] at hmeets
  exact ⟨u', opens_iff.2 ⟨hu', hmeets⟩, hds, hdefer, hR⟩

/-! ## What is found in selections with copies -/

theorem Flattens.append (h : g.Flattens t answers sels clause fs)
    (h' : g.Flattens t answers sels' clause fs') :
    g.Flattens t answers (sels ++ sels') clause (fs ++ fs') := by
  induction h with
  | nil => exact h'
  | field hn hf _ ih => exact .field hn hf (ih h')
  | passed hp _ ih => exact .passed hp (ih h')
  | entered hopens hans hinner _ _ ih =>
      rw [List.cons_append, List.append_assoc]
      exact .entered hopens hans hinner (ih h')
  | deferred hopens hc hd hasked _ ih => exact .deferred hopens hc hd hasked (ih h')

/-- What is found in some selections is what is found in each of them, put together. -/
theorem flattens_flatten {parts : List (List Found)}
    (h : List.Forall₂ (fun sel part => g.Flattens t answers [sel] clause part) sels parts) :
    g.Flattens t answers sels clause parts.flatten := by
  induction h with
  | nil => exact .nil
  | cons hone _ ih => exact hone.append ih

section Padded

variable (hschema : g.schema = g'.schema)
  (hR : ∀ set set', R set set' →
    Padded (g.Same g' R) [] (g.view.selectionsOf set) (g'.view.selectionsOf set'))

include hschema hR

/-- Each selection finds something, and a selection that says the same finds the same with some
padding. -/
theorem Flattens.exists_parts (h : g.Flattens t answers sels clause fs) :
    ∃ parts, fs = parts.flatten ∧ List.Forall₂ (fun sel part => ∀ sel', g.Same g' R sel sel' →
      ∃ part', g'.Flattens t answers [sel'] clause part' ∧ Padded (Found.Like R) [] part part')
      sels parts := by
  induction h with
  | nil => exact ⟨[], rfl, .nil⟩
  | @field _ node f _ clause _ hn hf _ ih =>
      obtain ⟨parts, rfl, hparts⟩ := ih
      refine ⟨[.field node f (reachedUnder clause node.directives)] :: parts, rfl,
        .cons (fun sel' hsame => ?_) hparts⟩
      obtain ⟨id', n', rfl, hn', hresembles, hsets⟩ := hsame.exists_field hn
      refine ⟨_, .field hn' (hresembles.name ▸ hf) .nil, .cons ?_ .nil⟩
      rw [← reachedUnder_congr hresembles.directives]
      exact .field ⟨hresembles, rfl, rfl, hsets⟩
  | passed hp _ ih =>
      obtain ⟨parts, rfl, hparts⟩ := ih
      exact ⟨[] :: parts, rfl,
        .cons (fun sel' hsame => ⟨[], .passed (hsame.passes hschema hp) .nil, .nil⟩) hparts⟩
  | @entered _ _ _ _ fs _ hopens _ _ _ ih ih' =>
      obtain ⟨inner, hinner, hall⟩ := ih
      obtain ⟨parts, rfl, hparts⟩ := ih'
      refine ⟨fs :: parts, rfl, .cons (fun sel' hsame => ?_) hparts⟩
      obtain ⟨u', hopens', hds, hdefer, hsets⟩ := hsame.opens hschema hopens
      -- what lies inside is padded, and so is what is found there
      obtain ⟨inner', hinner', hpadded⟩ := (hR _ _ hsets).exists_flatten hall .nil
      have hfound := flattens_flatten hinner'
      rw [reachedUnder_congr hds] at hfound
      refine ⟨inner'.flatten ++ [], .entered hopens' (fun ⟨_, _, hd⟩ => ?_) hfound .nil, ?_⟩
      · rw [← DeferDirective.ofDirectives?_congr hds, hdefer] at hd
        cases hd
      · rw [List.append_nil, hinner]
        exact hpadded
  | deferred hopens _ hd _ _ ih =>
      obtain ⟨parts, rfl, hparts⟩ := ih
      refine ⟨[_] :: parts, rfl, .cons (fun sel' hsame => ?_) hparts⟩
      obtain ⟨_, _, _, hdefer, _⟩ := hsame.opens hschema hopens
      rw [hdefer] at hd
      cases hd

/-- **What is found in padded selections is padded.** -/
theorem Flattens.exists_padded (h : g.Flattens t answers sels clause fs)
    (hsels : Padded (g.Same g' R) [] sels sels') :
    ∃ fs', g'.Flattens t answers sels' clause fs' ∧ Padded (Found.Like R) [] fs fs' := by
  obtain ⟨parts, rfl, hparts⟩ := h.exists_parts hschema hR
  obtain ⟨parts', hparts', hpadded⟩ := hsels.exists_flatten hparts .nil
  exact ⟨parts'.flatten, flattens_flatten hparts', hpadded⟩

/-- Without the padding no less can be found. -/
theorem Flattens.exists_original {seen : List SelectionNode}
    (h : g'.Flattens t answers sels' clause fs') (hsels : Padded (g.Same g' R) seen sels sels') :
    ∃ fs, g.Flattens t answers sels clause fs := by
  induction h generalizing sels seen with
  | nil =>
      cases hsels
      exact ⟨[], .nil⟩
  | field hn' hf _ ih =>
      cases hsels with
      | again _ _ hrest => exact ih hrest
      | cons hsame hrest =>
          obtain ⟨fs, hfs⟩ := ih hrest
          obtain ⟨id, n, rfl, hn, hresembles, -⟩ := hsame.symm.exists_field hn'
          exact ⟨_, .field hn (hresembles.name ▸ hf) hfs⟩
  | passed hp _ ih =>
      cases hsels with
      | again _ _ hrest => exact ih hrest
      | cons hsame hrest =>
          obtain ⟨fs, hfs⟩ := ih hrest
          exact ⟨fs, .passed (hsame.symm.passes hschema.symm hp) hfs⟩
  | entered hopens _ _ _ ih ih' =>
      cases hsels with
      | again _ _ hrest => exact ih' hrest
      | cons hsame hrest =>
          obtain ⟨u, hopens', hds, hdefer, hsets⟩ := hsame.symm.opens hschema.symm hopens
          obtain ⟨fs, hfs⟩ := ih (hR _ _ hsets)
          obtain ⟨fs', hfs'⟩ := ih' hrest
          rw [reachedUnder_congr hds] at hfs
          refine ⟨_, .entered hopens' (fun ⟨_, _, hd⟩ => ?_) hfs hfs'⟩
          rw [← DeferDirective.ofDirectives?_congr hds, hdefer] at hd
          cases hd
  | deferred hopens _ hd _ _ ih =>
      cases hsels with
      | again _ _ hrest => exact ih hrest
      | cons hsame hrest =>
          obtain ⟨_, _, _, hdefer, _⟩ := hsame.symm.opens hschema.symm hopens
          rw [hdefer] at hd
          cases hd

/-- What is found in padded sources is padded. -/
theorem FlattensAll.exists_padded {cs cs' : List ClausedSet}
    (h : g.FlattensAll t answers cs fs) (hcs : Padded (ClausedSet.Like R) [] cs cs') :
    ∃ fs', g'.FlattensAll t answers cs' fs' ∧ Padded (Found.Like R) [] fs fs' := by
  have hparts : ∃ parts, fs = parts.flatten ∧ List.Forall₂ (fun c part => ∀ c',
      ClausedSet.Like R c c' → ∃ part', g'.Flattens t answers (g'.view.selectionsOf c'.selectionSet)
        (some c'.clause) part' ∧ Padded (Found.Like R) [] part part') cs parts := by
    clear hcs
    induction h with
    | nil => exact ⟨[], rfl, .nil⟩
    | cons hflat _ ih =>
        obtain ⟨parts, rfl, hparts⟩ := ih
        refine ⟨_ :: parts, rfl, .cons (fun c' hc => ?_) hparts⟩
        exact hc.clause ▸ hflat.exists_padded hschema hR (hR _ _ hc.selectionSet)
  obtain ⟨parts, rfl, hparts⟩ := hparts
  obtain ⟨parts', hparts', hpadded⟩ := hcs.exists_flatten hparts .nil
  refine ⟨parts'.flatten, ?_, hpadded⟩
  clear hcs hpadded
  induction hparts' with
  | nil => exact .nil
  | cons hone _ ih => exact .cons hone ih

end Padded

end Setting

/-! ## Nobody takes notice -/

section Found

variable {R : SelectionSetId → SelectionSetId → Prop} {fs fs' : List Found}

theorem Found.Like.occurrence? {f f' : Found} (h : Found.Like R f f') :
    Option.Rel (FoundField.Like R) f.occurrence? f'.occurrence? := by
  cases h with
  | field h => exact .some h

theorem Found.Like.fieldAt? {f f' : Found} (h : Found.Like R f f') (key : String) :
    Option.Rel (FoundField.Like R) (f.fieldAt? key) (f'.fieldAt? key) := by
  cases h with
  | field ho =>
      rw [Found.fieldAt?, Found.fieldAt?, ← ho.resembles.responseKey]
      split
      · exact .some ho
      · exact .none

/-- Response keys once noted are not noted again. -/
def noteKey (keys : List String) (key : String) : List String :=
  if key ∈ keys then keys else keys ++ [key]

theorem absorbs_noteKey : Padded.Absorbs noteKey := by
  have hmem : ∀ {keys : List String} {key : String}, noteKey keys key = keys ↔ key ∈ keys := by
    intro keys key
    rw [noteKey]
    split
    · rename_i h
      exact iff_of_true rfl h
    · rename_i h
      exact iff_of_false (fun heq => by simpa using congrArg List.length heq) h
  have hkeep : ∀ {keys : List String} {key key' : String}, key ∈ keys → key ∈ noteKey keys key' := by
    intro keys key key' h
    rw [noteKey]
    split
    · exact h
    · exact List.mem_append_left _ h
  refine ⟨fun keys key => hmem.2 ?_, fun keys key key' h => hmem.2 (hkeep (hmem.1 h))⟩
  rw [noteKey]
  split
  · assumption
  · exact List.mem_append_right _ (List.mem_singleton_self key)

theorem Collected.keys_mergeAll_eq_foldl (c : Collected) (fs : List Found) :
    (c.mergeAll fs).fields.keys =
      ((occurrences fs).map (·.node.responseKey)).foldl noteKey c.fields.keys := by
  induction fs generalizing c with
  | nil => rfl
  | cons f fs ih =>
      rw [mergeAll, List.foldl_cons, ← mergeAll, ih]
      cases f with
      | deferral d => rfl
      | field node field clause =>
          rw [merge, OrderedMap.keys_insert]
          rfl

theorem absorbs_addClause : Padded.Absorbs IncludeCondition.addClause :=
  ⟨IncludeCondition.addClause_addClause_self,
    fun _ _ d h => IncludeCondition.addClause_addClause_of_eq h d⟩

/-- The clauses of padded occurrences are padded. -/
theorem condition_ofFound_padded {o o' : FoundField} {os os' : List FoundField}
    (h : Padded (FoundField.Like R) [] (o :: os) (o' :: os')) :
    (CollectedField.ofFound o os).condition = (CollectedField.ofFound o' os').condition := by
  have hclauses : Padded Eq [] ((o :: os).filterMap (·.clause)) ((o' :: os').filterMap (·.clause)) :=
    h.filterMap fun x y hxy => by
      rw [hxy.clause]
      cases y.clause with
      | none => exact .none
      | some c => exact .some rfl
  exact hclauses.foldl_eq absorbs_addClause (List.forall_mem_nil _)

theorem FoundField.Like.source? {o o' : FoundField} (h : o.Like R o') :
    Option.Rel (ClausedSet.Like R) o.source? o'.source? := by
  have hset := h.selectionSet
  rw [FoundField.source?, FoundField.source?, h.clause]
  cases o'.clause with
  | none => exact .none
  | some c =>
      generalize o.node.selectionSet = set, o'.node.selectionSet = set' at hset
      cases hset with
      | none => exact .none
      | some hset => exact .some ⟨rfl, hset⟩

/-- **What is padded comes to the same.** -/
theorem corresponding_of_padded (h : Padded (Found.Like R) [] fs fs') :
    Corresponding (Padded (ClausedSet.Like R) []) fs fs' := by
  have hocc : Padded (FoundField.Like R) [] (occurrences fs) (occurrences fs') :=
    h.filterMap fun _ _ hf => hf.occurrence?
  have hkeys : Padded Eq [] ((occurrences fs).map (·.node.responseKey))
      ((occurrences fs').map (·.node.responseKey)) :=
    hocc.map fun _ _ ho => ho.resembles.responseKey
  refine ⟨?_, fun {key o os o' os'} hocc hocc' => ?_, ?_⟩
  · rw [Collected.keys_mergeAll_eq_foldl, Collected.keys_mergeAll_eq_foldl]
    exact hkeys.foldl_eq absorbs_noteKey (List.forall_mem_nil _)
  · have hat : Padded (FoundField.Like R) [] (occurrencesAt key fs) (occurrencesAt key fs') :=
      h.filterMap fun _ _ hf => hf.fieldAt? key
    rw [hocc, hocc'] at hat
    obtain ⟨_, _, hcons, ho, -⟩ := hat.exists_cons
    obtain ⟨rfl, rfl⟩ := List.cons.inj hcons
    exact ⟨ho.field, ho.resembles.arguments, ho.resembles.inner, condition_ofFound_padded hat,
      hat.filterMap fun _ _ ho => ho.source?⟩
  · -- nothing is deferred on either side
    have hnone : ∀ {d}, .deferral d ∉ fs := fun hd => by
      obtain ⟨_, -, hlike⟩ := h.exists_of_mem_left hd
      cases hlike
    have hnone' : ∀ {d}, .deferral d ∉ fs' := fun hd => by
      obtain ⟨_, -, hlike⟩ := h.exists_of_mem hd
      cases hlike
    rw [List.eq_nil_iff_forall_not_mem.2 fun d hd => hnone (mem_deferrals_iff.1 hd),
      List.eq_nil_iff_forall_not_mem.2 fun d hd => hnone' (mem_deferrals_iff.1 hd)]
    exact .nil

end Found

/-- Padded sources come to the same. -/
theorem Setting.corresponds_of_padded {g g' : Setting}
    {R : SelectionSetId → SelectionSetId → Prop} (hschema : g.schema = g'.schema)
    (hR : ∀ set set', R set set' →
      Padded (g.Same g' R) [] (g.view.selectionsOf set) (g'.view.selectionsOf set')) :
    g.Corresponds g' (Padded (ClausedSet.Like R) []) where
  schema := hschema
  found hcs hfs hfs' := by
    obtain ⟨fs'', hfs'', hpadded⟩ := hfs.exists_padded hschema hR hcs
    rw [hfs''.unique (fun _ h => absurd h (by decide)) hfs'] at hpadded
    exact corresponding_of_padded hpadded
  readable hcs hread c' hc' := by
    obtain ⟨c, hc, hlike⟩ := hcs.exists_of_mem hc'
    intro clause
    obtain ⟨fs, hfs⟩ := hread c (hc.resolve_left List.not_mem_nil) clause
    obtain ⟨fs', hfs', -⟩ := hfs.exists_padded hschema hR (hR _ _ hlike.selectionSet)
    exact ⟨fs', hfs'⟩
  readable' hcs hread c hc := by
    obtain ⟨c', hc', hlike⟩ := hcs.exists_of_mem_left hc
    intro clause
    obtain ⟨fs', hfs'⟩ := hread c' hc' clause
    exact hfs'.exists_original hschema hR (hR _ _ hlike.selectionSet)

/-! ## Documents in which a selection is repeated -/

section Repeated

open Syntax

variable {file : Option String} {definitions definitions' : ExecutableDocument} {d d' : Document}
  {schema : Schema} {fragments fragments' : FragmentIndex}

/-- The selections are the same, but for what may be repeated below them. -/
inductive Syntax.Selection.RepeatsBelow : Syntax.Selection → Syntax.Selection → Prop
  | refl {s} : RepeatsBelow s s
  | field {head p items items'} :
      Selection.Repeats items items' →
      RepeatsBelow (.field head p items) (.field head p items')
  | inlineFragment {head p items items'} :
      Selection.Repeats items items' →
      RepeatsBelow (.inlineFragment head p items) (.inlineFragment head p items')

/-- Where a selection is repeated, the selections are padded. -/
theorem Syntax.Selection.MayRepeat.padded {items items' : List Syntax.Selection}
    (h : Selection.MayRepeat items items') : Padded Selection.RepeatsBelow [] items items' := by
  have hrefl : ∀ {seen} (xs : List Syntax.Selection),
      Padded Selection.RepeatsBelow seen xs xs := Padded.refl fun _ => .refl
  have hbelow : ∀ {before s s' after}, Selection.RepeatsBelow s s' →
      Padded Selection.RepeatsBelow [] (before ++ s :: after) (before ++ s' :: after) :=
    fun {before _ _ after} hs => (hrefl before).append (.cons hs (hrefl after)) (List.forall_mem_nil _)
  cases h with
  | refl => exact hrefl items
  | single h =>
      cases h with
      | @copy before s between after =>
          refine (hrefl before).append (.cons .refl ?_) (List.forall_mem_nil _)
          exact (hrefl between).append (.again List.mem_cons_self .refl (hrefl after))
            fun _ => Or.inl
      | field h => exact hbelow (.field h)
      | inlineFragment h => exact hbelow (.inlineFragment h)

/-- The selection sets are stored for selections of which one may be repeated. -/
def Document.SetsMayRepeat (d d' : Document) (set set' : SelectionSetId) : Prop :=
  ∃ s s', d.StoresSet set s ∧ d'.StoresSet set' s' ∧ Selection.MayRepeat s.items s'.items

theorem SyntaxArena.Stores.forall₂ {a : SyntaxArena} {nodes : List SelectionNode}
    {items : List Syntax.Selection} (h : a.Stores nodes items) :
    List.Forall₂ (fun n s => a.Stores [n] [s]) nodes items := by
  induction h with
  | nil => exact .nil
  | leaf hn hhead hset _ ih => exact .cons (.leaf hn hhead hset .nil) ih
  | field hn hhead hinner hitems hset hstores _ _ ih =>
      exact .cons (.field hn hhead hinner hitems hset hstores .nil) ih
  | spread hn hhead _ ih => exact .cons (.spread hn hhead .nil) ih
  | inlineFragment hn hhead hset hstores _ _ ih =>
      exact .cons (.inlineFragment hn hhead hset hstores .nil) ih

theorem Syntax.Selection.MayRepeat.isEmpty_eq {items items' : List Syntax.Selection}
    (h : Selection.MayRepeat items items') : items.isEmpty = items'.isEmpty := by
  have happend : ∀ (before : List Syntax.Selection) (s : Syntax.Selection) (after),
      (before ++ s :: after).isEmpty = false := fun before s after =>
    List.isEmpty_eq_false_iff.2 (List.append_ne_nil_of_right_ne_nil before (List.cons_ne_nil s after))
  cases h with
  | refl => rfl
  | single h => cases h <;> rw [happend, happend]

theorem same_field {head : FieldHead} {p : Position} {items items' : List Syntax.Selection}
    (hitems : Selection.MayRepeat items items') {n n' : SelectionNode}
    (h : d.syntaxArena.Stores [n] [.field head p items])
    (h' : d'.syntaxArena.Stores [n'] [.field head p items']) :
    Setting.Same ⟨schema, fragments, d.view⟩ ⟨schema, fragments', d'.view⟩ (d.SetsMayRepeat d')
      n n' := by
  have hempty := hitems.isEmpty_eq
  cases h with
  | leaf hn hhead hset _ =>
      cases h' with
      | leaf hn' hhead' hset' _ =>
          refine .field (SyntaxView.field?_of_document hn) (SyntaxView.field?_of_document hn')
            (hhead.resembles hhead' (by rw [hset, hset'])) ?_
          rw [hset, hset']
          exact .none
      | field _ _ _ hne _ _ _ => exact absurd (List.isEmpty_iff.1 hempty.symm) hne
  | field hn hhead hinner hne hset hstores _ =>
      cases h' with
      | leaf _ _ _ _ => exact absurd (List.isEmpty_iff.1 hempty) hne
      | field hn' hhead' hinner' _ hset' hstores' _ =>
          refine .field (SyntaxView.field?_of_document hn) (SyntaxView.field?_of_document hn')
            (hhead.resembles hhead' (by rw [hinner, hinner']; rfl)) ?_
          rw [hinner, hinner']
          exact .some ⟨⟨p, items⟩, ⟨p, items'⟩, ⟨_, hset, hstores⟩, ⟨_, hset', hstores'⟩, hitems⟩

theorem same_inlineFragment (hdefer : d.DeferFree) {head : InlineHead} {p : Position}
    {items items' : List Syntax.Selection} (hitems : Selection.MayRepeat items items')
    {n n' : SelectionNode} (h : d.syntaxArena.Stores [n] [.inlineFragment head p items])
    (h' : d'.syntaxArena.Stores [n'] [.inlineFragment head p items']) :
    Setting.Same ⟨schema, fragments, d.view⟩ ⟨schema, fragments', d'.view⟩ (d.SetsMayRepeat d')
      n n' := by
  cases h with
  | inlineFragment hn hhead hset hstores _ =>
      cases h' with
      | inlineFragment hn' hhead' hset' hstores' _ =>
          have hu : Setting.Uses ⟨schema, fragments, d.view⟩ _ _ :=
            .inlineFragment (SyntaxView.inlineFragment?_of_document hn)
          exact .fragment hu (.inlineFragment (SyntaxView.inlineFragment?_of_document hn'))
            (hhead.directives.trans hhead'.directives.symm)
            (hhead.typeCondition.trans hhead'.typeCondition.symm) (hdefer.ofDirectives? hu)
            ⟨⟨p, items⟩, ⟨p, items'⟩, ⟨_, hset, hstores⟩, ⟨_, hset', hstores'⟩, hitems⟩

/-- The index of one document resolves a name where that of the other does, to a fragment with the
same type condition. -/
theorem resolve?_mayRepeat (hs : d.Stores definitions) (hs' : d'.Stores definitions')
    (hfragments : List.Forall₂ FragmentDefinition.MayRepeat definitions.fragments
      definitions'.fragments)
    (hindex : FragmentIndex.build d = .ok fragments)
    (hindex' : FragmentIndex.build d' = .ok fragments') (name : String) :
    Option.Rel (fun f f' => f.typeCondition = f'.typeCondition ∧
      d.SetsMayRepeat d' f.selectionSet f'.selectionSet)
      (fragments.resolve? name) (fragments'.resolve? name) := by
  cases hf : fragments.resolve? name with
  | some node =>
      obtain ⟨hmem, rfl⟩ := (FragmentIndex.resolve?_iff hindex).1 hf
      obtain ⟨f, hdefined, hstored⟩ := exists_of_mem_left hs.fragments hmem
      obtain ⟨_, hdefined', items', hitems, rfl⟩ := exists_of_mem_left hfragments hdefined
      obtain ⟨node', hf', hstored'⟩ := FragmentIndex.resolved_of_mem hs' hindex' hdefined'
      rw [hstored.name, show fragments'.resolve? f.name = some node' from hf']
      exact .some ⟨hstored.typeCondition.trans hstored'.typeCondition.symm,
        _, _, hstored.selectionSet, hstored'.selectionSet, hitems⟩
  | none =>
      cases hf' : fragments'.resolve? name with
      | none => exact .none
      | some node' =>
          -- the fragment is defined in the other document too
          obtain ⟨hmem', rfl⟩ := (FragmentIndex.resolve?_iff hindex').1 hf'
          obtain ⟨_, hdefined', hstored'⟩ := exists_of_mem_left hs'.fragments hmem'
          obtain ⟨f, hdefined, _, _, rfl⟩ := exists_of_mem_right hfragments hdefined'
          obtain ⟨node, hnode, -⟩ := FragmentIndex.resolved_of_mem hs hindex hdefined
          rw [hstored'.name, show fragments.resolve? f.name = some node from hnode] at hf
          cases hf

theorem same_spread (hdefer : d.DeferFree) {head : SpreadHead}
    (hresolve : ∀ name, Option.Rel (fun f f' => f.typeCondition = f'.typeCondition ∧
      d.SetsMayRepeat d' f.selectionSet f'.selectionSet)
      (fragments.resolve? name) (fragments'.resolve? name)) {n n' : SelectionNode}
    (h : d.syntaxArena.Stores [n] [.spread head]) (h' : d'.syntaxArena.Stores [n'] [.spread head]) :
    Setting.Same ⟨schema, fragments, d.view⟩ ⟨schema, fragments', d'.view⟩ (d.SetsMayRepeat d')
      n n' := by
  cases h with
  | spread hn hhead _ =>
      cases h' with
      | spread hn' hhead' _ =>
          have hrel := hresolve head.name
          generalize hf : fragments.resolve? head.name = f,
            hf' : fragments'.resolve? head.name = f' at hrel
          rw [← hhead.fragmentName] at hf
          rw [← hhead'.fragmentName] at hf'
          cases hrel with
          | none =>
              exact .unknown (SyntaxView.spread?_of_document hn) hf
                (SyntaxView.spread?_of_document hn') hf'
          | some hsame =>
              have hu : Setting.Uses ⟨schema, fragments, d.view⟩ _ _ :=
                .spread (SyntaxView.spread?_of_document hn) hf
              exact .fragment hu (.spread (SyntaxView.spread?_of_document hn') hf')
                (hhead.directives.trans hhead'.directives.symm) (congrArg some hsame.1)
                (hdefer.ofDirectives? hu) hsame.2

/-- **The selections of a document in which a selection is repeated are padded**, in every selection
set. -/
theorem padded_of_setsMayRepeat (hdefer : d.DeferFree)
    (hresolve : ∀ name, Option.Rel (fun f f' => f.typeCondition = f'.typeCondition ∧
      d.SetsMayRepeat d' f.selectionSet f'.selectionSet)
      (fragments.resolve? name) (fragments'.resolve? name)) {set set' : SelectionSetId}
    (h : d.SetsMayRepeat d' set set') :
    Padded (Setting.Same ⟨schema, fragments, d.view⟩ ⟨schema, fragments', d'.view⟩
      (d.SetsMayRepeat d')) [] (d.view.selectionsOf set) (d'.view.selectionsOf set') := by
  obtain ⟨s, s', ⟨n, hset, hstores⟩, ⟨n', hset', hstores'⟩, hitems⟩ := h
  rw [Document.selectionsOf_view hset, Document.selectionsOf_view hset']
  refine hitems.padded.comp hstores.forall₂ hstores'.forall₂ (List.forall_mem_nil _) ?_
  intro n x x' n' hn hx hn'
  cases hx with
  | refl =>
      cases x with
      | field head p items => exact same_field .refl hn hn'
      | spread head => exact same_spread hdefer hresolve hn hn'
      | inlineFragment head p items => exact same_inlineFragment hdefer .refl hn hn'
  | field hitems => exact same_field (.single hitems) hn hn'
  | inlineFragment hitems => exact same_inlineFragment hdefer (.single hitems) hn hn'

/-- The operations of a document in which a selection is repeated come to the same. -/
theorem operations_mayRepeat (hs : d.Stores definitions) (hs' : d'.Stores definitions')
    (hoperations : List.Forall₂ OperationDefinition.MayRepeat definitions.operations
      definitions'.operations) :
    List.Forall₂ (OperationNode.Corresponds (Padded (ClausedSet.Like (d.SetsMayRepeat d')) []))
      d.operations d'.operations := by
  refine (forall₂_comp (forall₂_comp hs.operations hoperations) hs'.operations.flip).imp ?_
  rintro node node' ⟨_, ⟨o, hnode, items, hitems, rfl⟩, hnode'⟩
  exact ⟨hnode.name.trans hnode'.name.symm, hnode.kind.trans hnode'.kind.symm,
    hnode.head_eq hnode',
    .of_forall₂ (.cons ⟨rfl, _, _, hnode.selectionSet, hnode'.selectionSet, hitems⟩ .nil)⟩

/-- **Repeating a selection changes nothing.** In every document that can be indexed and defers
nothing, whichever selection of whichever selection set is repeated further behind, the document
that comes out can be built and indexed again, and under every schema each of its operations
compiles without optimizers exactly if the original one does, to a plan that prints the same text
and has as many selections. -/
theorem compile_repeated (hschema : schema.Built)
    (hd : Document.build file definitions = .ok d)
    (hindex : FragmentIndex.build d = .ok fragments) (hdefer : d.DeferFree)
    (h : definitions.placeless.Repeats definitions'.placeless) :
    ∃ d' fragments', Document.build file definitions' = .ok d' ∧
      FragmentIndex.build d' = .ok fragments' ∧
      ∀ (name : Option String) (memory : σ),
        ((∃ p m, CompileInput.compile ⟨schema, d, fragments, .empty⟩ name memory = (.ok p, m)) ↔
          ∃ p m,
            CompileInput.compile ⟨schema, d', fragments', .empty⟩ name memory = (.ok p, m)) ∧
        ∀ p p' m m',
          CompileInput.compile ⟨schema, d, fragments, .empty⟩ name memory = (.ok p, m) →
          CompileInput.compile ⟨schema, d', fragments', .empty⟩ name memory = (.ok p', m') →
          p.print = p'.print ∧ p.selectionCount = p'.selectionCount := by
  obtain ⟨d', hd'⟩ := Document.exists_build_repeated hd h
  obtain ⟨fragments', hindex'⟩ := FragmentIndex.exists_index_repeated hd ⟨_, hindex⟩ h hd'
  refine ⟨d', fragments', hd', hindex', fun name memory => ?_⟩
  let input : CompileInput σ := ⟨schema, d, fragments, .empty⟩
  let input' : CompileInput σ := ⟨schema, d', fragments', .empty⟩
  have hplain : input.Plain := ⟨⟨file, definitions, hd⟩, hindex, rfl⟩
  have hplain' : input'.Plain := ⟨⟨file, definitions', hd'⟩, hindex', rfl⟩
  have hs := (Document.stored_of_build hd).placeless
  have hs' := (Document.stored_of_build hd').placeless
  have hresolve := resolve?_mayRepeat hs hs' h.parts.2 hindex hindex'
  have hcorresponds : input.setting.Corresponds input'.setting
      (Padded (ClausedSet.Like (d.SetsMayRepeat d')) []) :=
    Setting.corresponds_of_padded rfl fun _ _ => padded_of_setsMayRepeat hdefer hresolve
  exact CompileInput.compile_corresponds hplain hplain' hschema hcorresponds
    (operations_mayRepeat hs hs' h.parts.1) name memory

end Repeated

namespace Linked

open Syntax

/-- The same two links, where a field with a condition is repeated at the end of the fragment. -/
def conditionalTwice : ExecutableDocument :=
  let test (name v : String) : Directive := ⟨name, [("if", .var v)], here⟩
  let copy : Syntax.Selection :=
    .field ⟨none, "__typename", [], [⟨"skip", [("if", .var "a")], ⟨4, 20⟩⟩], ⟨4, 9⟩⟩ here []
  [query [select "next" [test "include" "a"] [select "__typename" [] []],
    .spread ⟨"Rest", [test "skip" "b"], here⟩],
   fragment "Rest" [select "next" [] [select "__typename" [test "skip" "a"] [],
    select "next" [] [select "__typename" [] []], copy]]]

theorem repeats_conditionalTwice :
    conditionalDefinitions.placeless.Repeats conditionalTwice.placeless :=
  ⟨[_], _, _, [], rfl, rfl, .fragment
    (@Selection.Repeats.field [] _ _ _ _ [] (@Selection.Repeats.copy [] _ [_] []))⟩

theorem compile_conditionalTwice : ∃ d' fragments', Document.build none conditionalTwice = .ok d' ∧
    FragmentIndex.build d' = .ok fragments' ∧
    ∃ p p' m m',
      CompileInput.compile ⟨schema, conditional, conditionalFragments, .empty⟩ none () = (.ok p, m) ∧
      CompileInput.compile ⟨schema, d', fragments', .empty⟩ none () = (.ok p', m') ∧
      p.print = p'.print ∧ p.selectionCount = p'.selectionCount := by
  have hbuild : Document.build none conditionalDefinitions = .ok conditional := eq_ok_okValue _
  obtain ⟨d', fragments', hd', hindex', hcompile⟩ := compile_repeated (σ := Unit) schema_built hbuild
    conditionalFragments_eq conditional_deferFree repeats_conditionalTwice
  obtain ⟨hiff, hsame⟩ := hcompile none ()
  obtain ⟨p, m, hp⟩ := exists_eq_ok
    (x := CompileInput.compile ⟨schema, conditional, conditionalFragments, .empty⟩ none ())
    (by decide +kernel)
  obtain ⟨p', m', hp'⟩ := hiff.1 ⟨p, m, hp⟩
  exact ⟨d', fragments', hd', hindex', p, p', m, m', hp, hp', hsame p p' m m' hp hp'⟩

end Linked

end QueryPlan
