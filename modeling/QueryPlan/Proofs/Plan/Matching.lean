import QueryPlan.Proofs.Document.Inlined
import QueryPlan.Proofs.Plan.Readable

/-!
# Selections that match

Two lists of selections match if they say the same in the same order, each in its own setting,
whatever ids the nodes have: fields with the same sub-selections, and fragments with the same
type conditions and directives, whether they are inline or spread. What a type finds in selections
that match corresponds one to one (`Matches.flattens`). So it makes no difference whether a
spread is read or what it stands for (`Syntax.Selection.Inlines.matches`).
-/

set_option autoImplicit false

namespace QueryPlan

/-! ## Directives -/

/-- The directives say the same, wherever they stand. -/
def SameDirectives (ds es : List DirectiveNode) : Prop := ds.map (·.content) = es.map (·.content)

theorem DirectiveNode.content_eq_iff {d e : DirectiveNode} :
    d.content = e.content ↔ d.name = e.name ∧ d.arguments = e.arguments := Prod.mk_inj

/-- Directives that say the same have the same names and arguments, one by one. -/
theorem SameDirectives.forall₂ {ds es : List DirectiveNode} (h : SameDirectives ds es) :
    List.Forall₂ (fun d e => d.name = e.name ∧ d.arguments = e.arguments) ds es := by
  have hcontents : List.Forall₂ (fun d e => d.content = e.content) ds es := by
    rwa [← List.forall₂_map_right_iff, ← List.forall₂_map_left_iff, List.forall₂_eq_eq_eq]
  exact hcontents.imp fun _ _ => DirectiveNode.content_eq_iff.1

theorem Clause.andDirectives_congr {ds es : List DirectiveNode} (h : SameDirectives ds es)
    (c : Clause) : c.andDirectives ds = c.andDirectives es := by
  have hall := h.forall₂
  clear h
  induction hall generalizing c with
  | nil => rfl
  | @cons d e _ _ hsame _ ih =>
      obtain ⟨hname, harguments⟩ := hsame
      have hone : c.andDirective d = c.andDirective e := by
        unfold andDirective polarity?
        rw [hname, harguments]
      rw [andDirectives, andDirectives, List.foldlM_cons, List.foldlM_cons, hone]
      cases c.andDirective e with
      | none => rfl
      | some c' => exact ih c'

theorem reachedUnder_congr {ds es : List DirectiveNode} (h : SameDirectives ds es)
    (clause : Option Clause) : reachedUnder clause ds = reachedUnder clause es := by
  unfold reachedUnder
  simp only [Clause.andDirectives_congr h]

theorem DeferDirective.ofDirectives?_congr {ds es : List DirectiveNode}
    (h : SameDirectives ds es) : ofDirectives? ds = ofDirectives? es := by
  have hfind : Option.Rel (fun d e => d.name = e.name ∧ d.arguments = e.arguments)
      (ds.find? fun d => d.name = "defer") (es.find? fun e => e.name = "defer") :=
    rel_find? h.forall₂ fun d e hsame => by rw [hsame.1]
  unfold ofDirectives?
  generalize ds.find? (fun d => d.name = "defer") = found,
    es.find? (fun e => e.name = "defer") = found' at hfind
  -- nothing but the arguments of the directive is read
  cases hfind with
  | none => rfl
  | some hsame => simp only [Option.bind_eq_bind, Option.bind_some, hsame.2]

/-! ## Matching -/

/-- The nodes are those of a field with the same head, with or without sub-selections. -/
structure FieldNode.Resembles (n m : FieldNode) : Prop where
  aliasName : n.aliasName = m.aliasName
  name : n.name = m.name
  arguments : n.arguments = m.arguments
  directives : SameDirectives n.directives m.directives
  inner : n.selectionSet.isSome = m.selectionSet.isSome

theorem FieldNode.Resembles.responseKey {n m : FieldNode} (h : n.Resembles m) :
    n.responseKey = m.responseKey := by
  rw [FieldNode.responseKey, FieldNode.responseKey, h.aliasName, h.name]

namespace Setting

variable {g g' : Setting}

/-- The sub-selections of a node. -/
def below (g : Setting) (node : FieldNode) : List SelectionNode :=
  node.selectionSet.elim [] g.view.selectionsOf

/-- The selections say the same, each in its setting. -/
inductive Matches (g g' : Setting) : List SelectionNode → List SelectionNode → Prop
  | nil : Matches g g' [] []
  | field {id id' n n' rest rest'} :
      g.view.field? id = some n → g'.view.field? id' = some n' → n.Resembles n' →
      Matches g g' (g.below n) (g'.below n') → Matches g g' rest rest' →
      Matches g g' (.field id :: rest) (.field id' :: rest')
  | fragment {sel sel' u u' rest rest'} :
      g.Uses sel u → g'.Uses sel' u' → SameDirectives u.directives u'.directives →
      u.typeCondition = u'.typeCondition →
      Matches g g' (g.view.selectionsOf u.selectionSet) (g'.view.selectionsOf u'.selectionSet) →
      Matches g g' rest rest' → Matches g g' (sel :: rest) (sel' :: rest')

/-- The selection sets hold selections that match. -/
def MatchesSet (g g' : Setting) (set set' : SelectionSetId) : Prop :=
  g.Matches g' (g.view.selectionsOf set) (g'.view.selectionsOf set')

theorem Matches.symm {sels sels' : List SelectionNode} (h : g.Matches g' sels sels') :
    g'.Matches g sels' sels := by
  induction h with
  | nil => exact .nil
  | field hn hn' hsame _ _ ih ih' =>
      exact .field hn' hn ⟨hsame.aliasName.symm, hsame.name.symm, hsame.arguments.symm,
        hsame.directives.symm, hsame.inner.symm⟩ ih ih'
  | fragment hu hu' hds htc _ _ ih ih' => exact .fragment hu' hu hds.symm htc.symm ih ih'

end Setting

/-! ## What is found in selections that match -/

/-- The occurrences are those of the same field under the same clause. -/
structure FoundField.Matches (g g' : Setting) (o o' : FoundField) : Prop where
  resembles : o.node.Resembles o'.node
  field : o.field = o'.field
  clause : o.clause = o'.clause
  below : g.Matches g' (g.below o.node) (g'.below o'.node)

/-- The deferred fragments have the same head, and selections that match. -/
structure PendingDeferral.Matches (g g' : Setting) (d d' : PendingDeferral) : Prop where
  directive : d.directive = d'.directive
  clause : d.clause = d'.clause
  typeCondition : d.typeCondition = d'.typeCondition
  selectionSet : g.MatchesSet g' d.selectionSet d'.selectionSet

inductive Found.Matches (g g' : Setting) : Found → Found → Prop
  | field {n n' f c} : FoundField.Matches g g' ⟨n, f, c⟩ ⟨n', f, c⟩ →
      Matches g g' (.field n f c) (.field n' f c)
  | deferral {d d'} : PendingDeferral.Matches g g' d d' → Matches g g' (.deferral d) (.deferral d')

namespace Setting

variable {g g' : Setting} {t : ObjectType} {answers : Bool → Prop}

/-- **What is found in selections that match corresponds one to one.** -/
theorem Matches.flattens (hschema : g.schema = g'.schema) {sels sels' : List SelectionNode}
    {clause : Option Clause} {fs : List Found} (hm : g.Matches g' sels sels')
    (h : g.Flattens t answers sels clause fs) :
    ∃ fs', g'.Flattens t answers sels' clause fs' ∧ List.Forall₂ (Found.Matches g g') fs fs' := by
  induction h generalizing sels' with
  | nil =>
      cases hm
      exact ⟨[], .nil, .nil⟩
  | field hn hf _ ih =>
      cases hm with
      | fragment hu => cases hu
      | field hm hm' hsame hbelow hrest =>
          rw [hn, Option.some_inj] at hm
          subst hm
          obtain ⟨fs', hfs', hall⟩ := ih hrest
          refine ⟨_, .field hm' (hsame.name ▸ hf) hfs', .cons ?_ hall⟩
          rw [reachedUnder_congr hsame.directives]
          exact .field ⟨hsame, rfl, rfl, hbelow⟩
  | passed hp _ ih =>
      cases hm with
      | field hm =>
          cases hp with
          | noField hn =>
              rw [hm] at hn
              cases hn
      | fragment hu hu' _ htc _ hrest =>
          obtain ⟨fs', hfs', hall⟩ := ih hrest
          have hp' := hu.passes_iff.1 hp
          rw [htc, hschema] at hp'
          exact ⟨fs', .passed (hu'.passes_iff.2 hp') hfs', hall⟩
  | entered hopens hans _ _ ih ih' =>
      obtain ⟨huse, hmeets⟩ := opens_iff.1 hopens
      cases hm with
      | field hm => cases huse
      | fragment hu hu' hds htc hinner hrest =>
          obtain rfl := hu.unique huse
          obtain ⟨fs', hfs', hall⟩ := ih hinner
          obtain ⟨fs'', hfs'', hall'⟩ := ih' hrest
          rw [htc, hschema] at hmeets
          rw [reachedUnder_congr hds] at hfs'
          refine ⟨_, .entered (opens_iff.2 ⟨hu', hmeets⟩) (fun hdefer => hans ?_) hfs' hfs'',
            List.rel_append hall hall'⟩
          rwa [Deferrable, reachedUnder_congr hds, DeferDirective.ofDirectives?_congr hds]
  | deferred hopens hc hd hans _ ih =>
      obtain ⟨huse, hmeets⟩ := opens_iff.1 hopens
      cases hm with
      | field hm => cases huse
      | fragment hu hu' hds htc hinner hrest =>
          obtain rfl := hu.unique huse
          obtain ⟨fs', hfs', hall⟩ := ih hrest
          rw [htc, hschema] at hmeets
          rw [reachedUnder_congr hds] at hc
          rw [DeferDirective.ofDirectives?_congr hds] at hd
          exact ⟨_, .deferred (opens_iff.2 ⟨hu', hmeets⟩) hc hd hans hfs',
            .cons (.deferral ⟨rfl, rfl, htc, hinner⟩) hall⟩

/-- The sources are reached under the same clauses, and hold selections that match. -/
def MatchesSource (g g' : Setting) (c c' : ClausedSet) : Prop :=
  c.clause = c'.clause ∧ g.MatchesSet g' c.selectionSet c'.selectionSet

theorem flattensAll_of_matches (hschema : g.schema = g'.schema) {cs cs' : List ClausedSet}
    {fs : List Found} (hm : List.Forall₂ (g.MatchesSource g') cs cs')
    (h : g.FlattensAll t answers cs fs) :
    ∃ fs', g'.FlattensAll t answers cs' fs' ∧ List.Forall₂ (Found.Matches g g') fs fs' := by
  induction h generalizing cs' with
  | nil =>
      cases hm
      exact ⟨[], .nil, .nil⟩
  | cons hflat _ ih =>
      cases hm with
      | cons hone hrest =>
          obtain ⟨hclause, hset⟩ := hone
          obtain ⟨fs₁, hfs₁, hall₁⟩ := Matches.flattens hschema hset hflat
          obtain ⟨fs₂, hfs₂, hall₂⟩ := ih hrest
          exact ⟨fs₁ ++ fs₂, .cons (hclause ▸ hfs₁) hfs₂, List.rel_append hall₁ hall₂⟩

/-- Selections that match can be read if the others can be. -/
theorem Matches.readable (hschema : g.schema = g'.schema) {sels sels' : List SelectionNode}
    (hm : g.Matches g' sels sels') (h : g.Readable t sels) : g'.Readable t sels' := by
  intro clause
  obtain ⟨fs, hfs⟩ := h clause
  obtain ⟨fs', hfs', -⟩ := hm.flattens hschema hfs
  exact ⟨fs', hfs'⟩

/-! ## Flattenings are determined -/

/-- Where the optimizers can give one answer only, one thing only is found. -/
theorem Flattens.unique (hone : answers true → answers false → False) {sels : List SelectionNode}
    {clause : Option Clause} {fs fs' : List Found} (h : g.Flattens t answers sels clause fs)
    (h' : g.Flattens t answers sels clause fs') : fs = fs' := by
  induction h generalizing fs' with
  | nil =>
      cases h'
      rfl
  | field hn hf _ ih =>
      cases h' with
      | field hm hf' hrest =>
          rw [hn, Option.some_inj] at hm
          subst hm
          rw [hf, Option.some_inj] at hf'
          rw [hf', ih hrest]
      | passed hp =>
          cases hp with
          | noField hm =>
              rw [hn] at hm
              cases hm
      | entered hopens => cases hopens
      | deferred hopens => cases hopens
  | passed hp _ ih =>
      cases h' with
      | field hn =>
          cases hp with
          | noField hm =>
              rw [hn] at hm
              cases hm
      | passed _ hrest => exact ih hrest
      | entered hopens => exact absurd hopens hp.not_opens
      | deferred hopens => exact absurd hopens hp.not_opens
  | entered hopens hans _ _ ih ih' =>
      cases h' with
      | field hn => cases hopens
      | passed hp => exact absurd hopens hp.not_opens
      | entered hopens' _ hinner hrest =>
          obtain rfl := hopens.unique hopens'
          rw [ih hinner, ih' hrest]
      | deferred hopens' hc hd hasked =>
          obtain rfl := hopens.unique hopens'
          exact (hone hasked (hans ⟨⟨_, hc⟩, _, hd⟩)).elim
  | deferred hopens hc hd hasked _ ih =>
      cases h' with
      | field hn => cases hopens
      | passed hp => exact absurd hopens hp.not_opens
      | entered hopens' hans =>
          obtain rfl := hopens.unique hopens'
          exact (hone hasked (hans ⟨⟨_, hc⟩, _, hd⟩)).elim
      | deferred hopens' hc' hd' _ hrest =>
          obtain rfl := hopens.unique hopens'
          rw [hc, Option.some_inj] at hc'
          rw [hd, Option.some_inj] at hd'
          rw [hc', hd', ih hrest]

theorem FlattensAll.unique (hone : answers true → answers false → False) {cs : List ClausedSet}
    {fs fs' : List Found} (h : g.FlattensAll t answers cs fs)
    (h' : g.FlattensAll t answers cs fs') : fs = fs' := by
  induction h generalizing fs' with
  | nil =>
      cases h'
      rfl
  | cons hflat _ ih =>
      cases h' with
      | cons hflat' hrest => rw [hflat.unique hone hflat', ih hrest]

end Setting

/-! ## Spreads and what they stand for -/

section Inlined

open Syntax

variable {definitions : ExecutableDocument} {schema : Schema} {fragments fragments' : FragmentIndex}
  {d d' : Document}

theorem Document.selectionsOf_view {id : SelectionSetId} {set : SelectionSetNode}
    (h : d.syntaxArena.selectionSet? id = some set) : d.view.selectionsOf id = set.selections :=
  SyntaxView.selectionsOf_of_document h

/-- Nodes with the same head resemble each other. -/
theorem FieldNode.Stores.resembles {n n' : FieldNode} {head : FieldHead} (h : n.Stores head)
    (h' : n'.Stores head) (hinner : n.selectionSet.isSome = n'.selectionSet.isSome) :
    n.Resembles n' :=
  ⟨h.aliasName.trans h'.aliasName.symm, h.name.trans h'.name.symm,
    h.arguments.trans h'.arguments.symm, h.directives.trans h'.directives.symm, hinner⟩

/-- A field that is stored has a node, with sub-selections if there are some. -/
theorem SyntaxArena.Stores.exists_field {nodes : List SelectionNode} {head : FieldHead}
    {p : Position} {items rest : List Syntax.Selection}
    (h : d.syntaxArena.Stores nodes (.field head p items :: rest)) :
    ∃ id node nodes', nodes = .field id :: nodes' ∧ d.view.field? id = some node ∧
      node.Stores head ∧ node.selectionSet.isSome = !items.isEmpty ∧
      d.syntaxArena.Stores (Setting.below ⟨schema, fragments, d.view⟩ node) items ∧
      d.syntaxArena.Stores nodes' rest := by
  cases h with
  | leaf hn hhead hset hrest =>
      refine ⟨_, _, _, rfl, SyntaxView.field?_of_document hn, hhead, by rw [hset]; rfl, ?_, hrest⟩
      rw [Setting.below, hset]
      exact .nil
  | field hn hhead hinner hitems hset hstores hrest =>
      refine ⟨_, _, _, rfl, SyntaxView.field?_of_document hn, hhead, ?_, ?_, hrest⟩
      · rw [hinner, List.isEmpty_eq_false_iff.2 hitems]
        rfl
      · rw [Setting.below, hinner, Option.elim_some, Document.selectionsOf_view hset]
        exact hstores

/-- **Selections match what is left of them when their spreads are written out.** -/
theorem Syntax.Selection.Inlines.matches
    (hresolve : ∀ f ∈ definitions.fragments, ∃ node,
      fragments.resolve? f.name = some node ∧ d.StoresFragment node f)
    {items items' : List Syntax.Selection} (h : Selection.Inlines definitions items items')
    {nodes nodes' : List SelectionNode} (hs : d.syntaxArena.Stores nodes items)
    (hs' : d'.syntaxArena.Stores nodes' items') :
    Setting.Matches ⟨schema, fragments, d.view⟩ ⟨schema, fragments', d'.view⟩ nodes nodes' := by
  induction h generalizing nodes nodes' with
  | nil =>
      cases hs
      cases hs'
      exact .nil
  | @field head p items items' _ _ hitems _ ih ih' =>
      obtain ⟨id, n, rest, rfl, hn, hhead, hsome, hbelow, hrest⟩ := hs.exists_field
      obtain ⟨id', n', rest', rfl, hn', hhead', hsome', hbelow', hrest'⟩ := hs'.exists_field
      have hempty : items.isEmpty = items'.isEmpty := by cases hitems <;> rfl
      have hsame : n.Resembles n' := hhead.resembles hhead' (by rw [hsome, hsome', hempty])
      exact .field hn hn' hsame (ih hbelow hbelow') (ih' hrest hrest')
  | inlineFragment _ _ ih ih' =>
      cases hs with
      | inlineFragment hn hhead hset hstores hrest =>
          cases hs' with
          | inlineFragment hn' hhead' hset' hstores' hrest' =>
              refine .fragment (.inlineFragment (SyntaxView.inlineFragment?_of_document hn))
                (.inlineFragment (SyntaxView.inlineFragment?_of_document hn'))
                (hhead.directives.trans hhead'.directives.symm)
                (hhead.typeCondition.trans hhead'.typeCondition.symm) ?_ (ih' hrest hrest')
              dsimp only
              rw [Document.selectionsOf_view hset, Document.selectionsOf_view hset']
              exact ih hstores hstores'
  | @spread head f _ _ _ _ _ hf hname _ _ ih ih' =>
      cases hs with
      | spread hn hhead hrest =>
          cases hs' with
          | inlineFragment hn' hhead' hset' hstores' hrest' =>
              obtain ⟨node, hnode, hfragment⟩ := hresolve f hf
              obtain ⟨set, hset, hstores⟩ := hfragment.selectionSet
              rw [hname, ← hhead.fragmentName] at hnode
              -- the body of the fragment stands where it is spread
              refine .fragment (.spread (SyntaxView.spread?_of_document hn) hnode)
                (.inlineFragment (SyntaxView.inlineFragment?_of_document hn'))
                (hhead.directives.trans hhead'.directives.symm) ?_ ?_ (ih' hrest hrest')
              · rw [hhead'.typeCondition, ← hfragment.typeCondition]
              · dsimp only
                rw [Document.selectionsOf_view hset, Document.selectionsOf_view hset']
                exact ih hstores hstores'

end Inlined

end QueryPlan
