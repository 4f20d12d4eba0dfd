import QueryPlan.Proofs.Plan.Readable

/-!
# How far a compilation reaches

Which selections a compilation looks at is a matter of the way that leads there
(`Setting.Reaches`): fragments are entered even where no request can get to them, but what is below
a field is left alone there, and a deferred fragment starts afresh. Along the way, clauses say the
same as the directives (`Conveys`), so whatever is found in selections that have been reached has
been reached as well (`Flattens.arrives`).

Three things can be wrong with a selection: the type has no such field, a spread names no fragment,
or a type condition names no type. What has been flattened is faultless in this sense, and what is
faultless can be read.
-/

set_option autoImplicit false

namespace QueryPlan

/-! ## Directives on the way -/

/-- Some request gets past all the directives. -/
def Passable (ds : List DirectiveNode) : Prop := ∃ vars : Variables, vars.keep ds = true

/-- The fragment with the directives `own` is set aside, at the end of a way with the directives
`ds`. -/
def SetAside (ds own : List DirectiveNode) : Prop :=
  (∃ d, DeferDirective.ofDirectives? own = some d) ∧ Passable (ds ++ own)

/-- The clause holds for the requests that get past the directives, and has been given up if there
are none. -/
structure Conveys (clause : Option Clause) (ds : List DirectiveNode) : Prop where
  satisfiable : ∀ c ∈ clause, c.Satisfiable
  holds : ∀ vars : Variables, clause.any (·.isSatisfied vars) = vars.keep ds

theorem Variables.keep_append (vars : Variables) (ds ds' : List DirectiveNode) :
    vars.keep (ds ++ ds') = (vars.keep ds && vars.keep ds') :=
  List.all_append

theorem conveys_always : Conveys (some .always) [] where
  satisfiable _ hc := Option.some.inj hc ▸ Clause.satisfiable_always
  holds _ := rfl

section Conveyed

variable {clause : Option Clause} {ds : List DirectiveNode}

theorem Conveys.reachedUnder (h : Conveys clause ds) (own : List DirectiveNode) :
    Conveys (reachedUnder clause own) (ds ++ own) where
  satisfiable c hc := by
    obtain ⟨c', hc', hown⟩ := Option.bind_eq_some_iff.1 hc
    exact Clause.satisfiable_andDirectives (h.satisfiable c' hc') hown
  holds vars := by
    rw [Variables.keep_append, ← h.holds vars]
    exact Clause.any_bind_andDirectives clause own

/-- A clause is kept exactly as long as some request gets past the directives. -/
theorem Conveys.exists_iff (h : Conveys clause ds) : (∃ c, clause = some c) ↔ Passable ds := by
  constructor
  · rintro ⟨c, rfl⟩
    obtain ⟨vars, hvars⟩ := h.satisfiable c rfl
    exact ⟨vars, (h.holds vars).symm.trans hvars⟩
  · rintro ⟨vars, hvars⟩
    rw [← h.holds vars] at hvars
    obtain ⟨c, hc, -⟩ := (Option.any_eq_true _ _).1 hvars
    exact ⟨c, hc⟩

theorem Conveys.deferrable_iff (h : Conveys clause ds) (own : List DirectiveNode) :
    Deferrable clause own ↔ SetAside ds own := by
  unfold Deferrable SetAside
  rw [(h.reachedUnder own).exists_iff]
  exact and_comm

end Conveyed

/-! ## What is reached -/

namespace Setting

section Reach

variable (g : Setting) (rootType : ObjectType) (root : SelectionSetId)

/-- A selection set is reached at a place of a response for a type, on a way with some
directives: from the root on, in fragments that the type enters, and below fields at each type
that the field can have, as long as some request gets there. In a fragment that is set aside the
way starts afresh. -/
inductive Reaches : ResponsePath → ObjectType → List DirectiveNode → SelectionSetId → Prop
  | root : Reaches [] rootType [] root
  | entered {path t ds set sel use} :
      Reaches path t ds set → sel ∈ g.view.selectionsOf set → g.Opens t sel use →
      ¬ SetAside ds use.directives →
      Reaches path t (ds ++ use.directives) use.selectionSet
  | deferred {path t ds set sel use} :
      Reaches path t ds set → sel ∈ g.view.selectionsOf set → g.Opens t sel use →
      SetAside ds use.directives →
      Reaches path t [] use.selectionSet
  | inner {path t ds set id node field inner t'} :
      Reaches path t ds set → .field id ∈ g.view.selectionsOf set →
      g.view.field? id = some node → t.field? node.name = some field →
      node.selectionSet = some inner → Passable (ds ++ node.directives) →
      t' ∈ g.schema.possibleTypes field.type.innermost →
      Reaches ((node.responseKey, t'.name) :: path) t' (ds ++ node.directives) inner

/-- The field node can be collected at the place for the type. -/
def ReachesField (path : ResponsePath) (t : ObjectType) (node : FieldNode) : Prop :=
  ∃ ds set id, g.Reaches rootType root path t ds set ∧ .field id ∈ g.view.selectionsOf set ∧
    g.view.field? id = some node

/-- Nodes that can be collected at one place for one type under one response key name the same
field, and both or none of them have sub-selections. -/
def CollectableAgree : Prop :=
  ∀ ⦃path t node node'⦄, g.ReachesField rootType root path t node →
    g.ReachesField rootType root path t node' → node.responseKey = node'.responseKey →
    node.name = node'.name ∧ node.selectionSet.isSome = node'.selectionSet.isSome

/-- Nothing is wrong with the selection for a type: the type has the field, the spread names a
fragment, and the type condition names a type. -/
def Faultless (t : ObjectType) : SelectionNode → Prop
  | .field id => ∀ node, g.view.field? id = some node → ∃ field, t.field? node.name = some field
  | .inlineFragment id => ∀ node, g.view.inlineFragment? id = some node →
    ∀ c, node.typeCondition = some c → ∃ type, g.schema.type? c = some type
  | .spread id => ∀ node, g.view.spread? id = some node →
    ∃ fragment, g.fragments.resolve? node.fragmentName = some fragment ∧
      ∃ type, g.schema.type? fragment.typeCondition = some type

/-- Nothing is wrong with any selection that is reached. -/
def AllFaultless : Prop :=
  ∀ ⦃path t ds set⦄, g.Reaches rootType root path t ds set →
    ∀ sel ∈ g.view.selectionsOf set, g.Faultless t sel

end Reach

variable {g : Setting} {rootType t : ObjectType} {root set : SelectionSetId} {path : ResponsePath}
  {ds : List DirectiveNode} {clause : Option Clause} {sels : List SelectionNode}
  {answers : Bool → Prop} {fs : List Found}

/-- A fragment that a type enters is reached, whether it is set aside or not. -/
theorem Reaches.fragment (h : g.Reaches rootType root path t ds set) {sel : SelectionNode}
    (hsel : sel ∈ g.view.selectionsOf set) {use : FragmentUse} (hopens : g.Opens t sel use) :
    ∃ ds', g.Reaches rootType root path t ds' use.selectionSet := by
  by_cases haside : SetAside ds use.directives
  · exact ⟨[], .deferred h hsel hopens haside⟩
  · exact ⟨_, .entered h hsel hopens haside⟩

/-- What is reached at a place could be selected there by some request, if directives are left
aside. -/
theorem Reaches.selects (h : g.Reaches rootType root path t ds set) {node : FieldNode}
    (hcollects : g.Collects (fun _ => true) t (g.view.selectionsOf set) node) :
    g.Selects (fun _ => true) rootType root path t node := by
  induction h generalizing node with
  | root => exact ⟨root, .root, hcollects⟩
  | entered _ hsel hopens _ ih => exact ih (.fragment hsel hopens rfl hcollects)
  | deferred _ hsel hopens _ ih => exact ih (.fragment hsel hopens rfl hcollects)
  | inner _ hsel hn hf hinner _ ht ih =>
      obtain ⟨set, hat, hcollects'⟩ := ih (.field hsel hn rfl)
      exact ⟨_, .step hat hcollects' hf hinner ht, hcollects⟩

/-- Nodes agree where they are collected if they do wherever some request could select them. -/
theorem NodesAgree.collectable (h : g.NodesAgree rootType root) :
    g.CollectableAgree rootType root := by
  rintro path t node node' ⟨ds, set, id, hreach, hsel, hn⟩ ⟨ds', set', id', hreach', hsel', hn'⟩
  exact h (hreach.selects (.field hsel hn rfl)) (hreach'.selects (.field hsel' hn' rfl))

/-! ## What a flattening tells of the selections -/

/-- What is found in a list of selections is found in each of them. -/
theorem Flattens.of_mem (h : g.Flattens t answers sels clause fs) {sel : SelectionNode}
    (hsel : sel ∈ sels) : ∃ fs', g.Flattens t answers [sel] clause fs' ∧ fs' ⊆ fs := by
  induction h with
  | nil => exact absurd hsel List.not_mem_nil
  | field hn hf _ ih =>
      rcases List.mem_cons.1 hsel with rfl | hsel
      · exact ⟨_, .field hn hf .nil, by simp⟩
      · obtain ⟨fs', hfs', hsub⟩ := ih hsel
        exact ⟨fs', hfs', List.subset_cons_of_subset _ hsub⟩
  | passed hp _ ih =>
      rcases List.mem_cons.1 hsel with rfl | hsel
      · exact ⟨[], .passed hp .nil, List.nil_subset _⟩
      · exact ih hsel
  | entered hopens hanswers hinner _ _ ih =>
      rcases List.mem_cons.1 hsel with rfl | hsel
      · exact ⟨_, .entered hopens hanswers hinner .nil, by simp⟩
      · obtain ⟨fs', hfs', hsub⟩ := ih hsel
        exact ⟨fs', hfs', List.subset_append_of_subset_right _ hsub⟩
  | deferred hopens hc hd hasked _ ih =>
      rcases List.mem_cons.1 hsel with rfl | hsel
      · exact ⟨_, .deferred hopens hc hd hasked .nil, by simp⟩
      · obtain ⟨fs', hfs', hsub⟩ := ih hsel
        exact ⟨fs', hfs', List.subset_cons_of_subset _ hsub⟩

theorem Opens.faultless {sel : SelectionNode} {use : FragmentUse} (h : g.Opens t sel use) :
    g.Faultless t sel := by
  cases h with
  | inlineFragment hn hmeets =>
      intro node hn' c hc
      rw [hn, Option.some_inj] at hn'
      subst hn'
      exact Schema.exists_type_of_isPossibleType (hmeets c hc)
  | spread hn hf hmeets =>
      intro node hn'
      rw [hn, Option.some_inj] at hn'
      subst hn'
      exact ⟨_, hf, Schema.exists_type_of_isPossibleType hmeets⟩

theorem Passes.faultless {sel : SelectionNode} (h : g.Passes t sel) : g.Faultless t sel := by
  cases h with
  | inlineFragment hn hc hdefined _ =>
      intro node hn' c' hc'
      rw [hn, Option.some_inj] at hn'
      subst hn'
      rw [hc, Option.some_inj] at hc'
      exact hc' ▸ hdefined
  | spread hn hf hdefined _ =>
      intro node hn'
      rw [hn, Option.some_inj] at hn'
      subst hn'
      exact ⟨_, hf, hdefined⟩
  | noField hn => exact fun node hn' => absurd (hn.symm.trans hn') (by simp)
  | noInlineFragment hn => exact fun node hn' => absurd (hn.symm.trans hn') (by simp)
  | noSpread hn => exact fun node hn' => absurd (hn.symm.trans hn') (by simp)

/-- A selection that has been gone through is faultless. -/
theorem Flattens.faultless (h : g.Flattens t answers sels clause fs) :
    ∀ sel ∈ sels, g.Faultless t sel := by
  intro sel hsel
  obtain ⟨fs', hone, -⟩ := h.of_mem hsel
  cases hone with
  | @field id node field _ _ _ hn hf _ =>
      intro node' hn'
      rw [hn, Option.some_inj] at hn'
      exact ⟨field, hn' ▸ hf⟩
  | passed hp _ => exact hp.faultless
  | entered hopens _ _ _ => exact hopens.faultless
  | deferred hopens _ _ _ _ => exact hopens.faultless

/-- A field node that has been gone through was found. -/
theorem Flattens.exists_field (h : g.Flattens t answers sels clause fs) {id : FieldId}
    {node : FieldNode} (hsel : .field id ∈ sels) (hn : g.view.field? id = some node) :
    ∃ f, .field node f (reachedUnder clause node.directives) ∈ fs := by
  obtain ⟨fs', hone, hsub⟩ := h.of_mem hsel
  cases hone with
  | field hn' _ _ =>
      rw [hn, Option.some_inj] at hn'
      subst hn'
      exact ⟨_, hsub List.mem_cons_self⟩
  | passed hp _ =>
      cases hp with
      | noField hnone => exact absurd (hnone.symm.trans hn) (by simp)
  | entered hopens _ _ _ => cases hopens
  | deferred hopens _ _ _ _ => cases hopens

/-- A fragment that cannot be set aside was gone into. -/
theorem Flattens.exists_inner (h : g.Flattens t answers sels clause fs) {sel : SelectionNode}
    (hsel : sel ∈ sels) {use : FragmentUse} (hopens : g.Opens t sel use)
    (hnot : ¬ Deferrable clause use.directives) :
    ∃ fs', g.Flattens t answers (g.view.selectionsOf use.selectionSet)
      (reachedUnder clause use.directives) fs' ∧ fs' ⊆ fs := by
  obtain ⟨fs', hone, hsub⟩ := h.of_mem hsel
  cases hone with
  | field _ _ _ => cases hopens
  | passed hp _ => exact absurd hopens hp.not_opens
  | entered hopens' _ hinner _ =>
      obtain rfl := hopens.unique hopens'
      exact ⟨_, hinner, List.Subset.trans (List.subset_append_left _ _) hsub⟩
  | deferred hopens' hc hd _ _ =>
      obtain rfl := hopens.unique hopens'
      exact absurd ⟨⟨_, hc⟩, _, hd⟩ hnot

/-- A fragment that can be set aside is, if nothing keeps it from being deferred. -/
theorem Flattens.exists_deferral (h : g.Flattens t (· = true) sels clause fs)
    {sel : SelectionNode} (hsel : sel ∈ sels) {use : FragmentUse} (hopens : g.Opens t sel use)
    (hdefer : Deferrable clause use.directives) :
    ∃ d, .deferral d ∈ fs ∧ d.selectionSet = use.selectionSet := by
  obtain ⟨fs', hone, hsub⟩ := h.of_mem hsel
  cases hone with
  | field _ _ _ => cases hopens
  | passed hp _ => exact absurd hopens hp.not_opens
  | entered hopens' hanswers _ _ =>
      obtain rfl := hopens.unique hopens'
      exact absurd (hanswers hdefer) Bool.false_ne_true
  | deferred hopens' _ _ _ _ =>
      obtain rfl := hopens.unique hopens'
      exact ⟨_, hsub List.mem_cons_self, rfl⟩

end Setting

/-! ## What is found has been reached -/

/-- The occurrence of a field has been reached at a place, or what is set aside will be. -/
def Found.Arrives (g : Setting) (rootType : ObjectType) (root : SelectionSetId)
    (path : Setting.ResponsePath) (t : ObjectType) : Found → Prop
  | .field node _ clause => ∃ ds set id, g.Reaches rootType root path t ds set ∧
    .field id ∈ g.view.selectionsOf set ∧ g.view.field? id = some node ∧
    Conveys clause (ds ++ node.directives)
  | .deferral d => g.Reaches rootType root path t [] d.selectionSet

namespace Setting

variable {g : Setting} {rootType t : ObjectType} {root set : SelectionSetId} {path : ResponsePath}
  {ds : List DirectiveNode} {clause : Option Clause} {sels : List SelectionNode}
  {answers : Bool → Prop} {fs : List Found}

theorem Flattens.arrives (h : g.Flattens t (· = true) sels clause fs)
    (hsels : ∀ sel ∈ sels, sel ∈ g.view.selectionsOf set)
    (hreach : g.Reaches rootType root path t ds set) (hclause : Conveys clause ds) :
    ∀ f ∈ fs, f.Arrives g rootType root path t := by
  induction h generalizing set ds with
  | nil => exact List.forall_mem_nil _
  | @field id node _ _ _ _ hn _ _ ih =>
      rw [List.forall_mem_cons] at hsels
      have hself : ∃ ds set id, g.Reaches rootType root path t ds set ∧
          .field id ∈ g.view.selectionsOf set ∧ g.view.field? id = some node ∧
          Conveys (reachedUnder _ node.directives) (ds ++ node.directives) :=
        ⟨ds, set, id, hreach, hsels.1, hn, hclause.reachedUnder _⟩
      exact List.forall_mem_cons.2 ⟨hself, ih hsels.2 hreach hclause⟩
  | passed _ _ ih =>
      rw [List.forall_mem_cons] at hsels
      exact ih hsels.2 hreach hclause
  | @entered _ use _ _ _ _ hopens hanswers _ _ ih ih' =>
      rw [List.forall_mem_cons] at hsels
      have hnot : ¬ SetAside ds use.directives := by
        intro haside
        exact absurd (hanswers ((hclause.deferrable_iff _).2 haside)) Bool.false_ne_true
      exact List.forall_mem_append.2
        ⟨ih (fun _ => id) (.entered hreach hsels.1 hopens hnot) (hclause.reachedUnder _),
          ih' hsels.2 hreach hclause⟩
  | @deferred _ use _ _ _ _ _ hopens hc hd _ _ ih =>
      rw [List.forall_mem_cons] at hsels
      have haside : SetAside ds use.directives :=
        (hclause.deferrable_iff _).1 ⟨⟨_, hc⟩, _, hd⟩
      exact List.forall_mem_cons.2
        ⟨.deferred hreach hsels.1 hopens haside, ih hsels.2 hreach hclause⟩

/-- What is found in sources that have been reached has been reached as well. -/
theorem FlattensAll.arrives {sources : List ClausedSet}
    (h : g.FlattensAll t (· = true) sources fs)
    (hsources : ∀ c ∈ sources, ∃ ds, g.Reaches rootType root path t ds c.selectionSet ∧
      Conveys (some c.clause) ds) : ∀ f ∈ fs, f.Arrives g rootType root path t := by
  induction h with
  | nil => exact List.forall_mem_nil _
  | cons hflat _ ih =>
      rw [List.forall_mem_cons] at hsources
      obtain ⟨⟨ds, hreach, hclause⟩, hrest⟩ := hsources
      exact List.forall_mem_append.2
        ⟨hflat.arrives (fun _ => id) hreach hclause, ih hrest⟩

/-! ## Faultless selections can be read -/

/-- A faultless selection is a field of the type, or a fragment that is opened or passed over; it
may also have no node. -/
theorem Faultless.cases {sel : SelectionNode} (h : g.Faultless t sel) :
    (∃ id node field, sel = .field id ∧ g.view.field? id = some node ∧
      t.field? node.name = some field) ∨ g.Passes t sel ∨ ∃ use, g.Opens t sel use := by
  cases sel with
  | field id =>
      cases hn : g.view.field? id with
      | none => exact Or.inr (Or.inl (.noField hn))
      | some node =>
          obtain ⟨field, hf⟩ := h node hn
          exact Or.inl ⟨id, node, field, rfl, hn, hf⟩
  | inlineFragment id =>
      right
      cases hn : g.view.inlineFragment? id with
      | none => exact Or.inl (.noInlineFragment hn)
      | some node =>
          by_cases hmeets : ∀ c, node.typeCondition = some c →
              g.schema.isPossibleType c t.name = true
          · exact Or.inr ⟨_, .inlineFragment hn hmeets⟩
          · push Not at hmeets
            obtain ⟨c, hc, hnot⟩ := hmeets
            exact Or.inl (.inlineFragment hn hc (h node hn c hc) (Bool.eq_false_of_not_eq_true hnot))
  | spread id =>
      right
      cases hn : g.view.spread? id with
      | none => exact Or.inl (.noSpread hn)
      | some node =>
          obtain ⟨fragment, hf, hdefined⟩ := h node hn
          cases hmeets : g.schema.isPossibleType fragment.typeCondition t.name with
          | true => exact Or.inr ⟨_, .spread hn hf hmeets⟩
          | false => exact Or.inl (.spread hn hf hdefined hmeets)

theorem readable_of_faultless (hsels : ∀ sel ∈ sels, g.Faultless t sel)
    (hinner : ∀ sel ∈ sels, ∀ use, g.Opens t sel use →
      g.Readable t (g.view.selectionsOf use.selectionSet)) : g.Readable t sels := by
  intro clause
  induction sels with
  | nil => exact ⟨[], .nil⟩
  | cons sel sels ih =>
      rw [List.forall_mem_cons] at hsels hinner
      obtain ⟨fs, hfs⟩ := ih hsels.2 hinner.2
      rcases hsels.1.cases with ⟨id, node, field, rfl, hn, hf⟩ | hp | ⟨use, hopens⟩
      · exact ⟨_, .field hn hf hfs⟩
      · exact ⟨_, .passed hp hfs⟩
      · obtain ⟨fs', hfs'⟩ := hinner.1 use hopens (reachedUnder clause use.directives)
        exact ⟨_, .entered hopens (fun _ => rfl) hfs' hfs⟩

end Setting

end QueryPlan
