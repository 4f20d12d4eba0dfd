import QueryPlan.Proofs.Document.Fragments
import QueryPlan.Proofs.Plan.Flatten

/-!
# Reading an operation without a plan

Which fields a request selects can be read off the syntax, given a way to decide for the
directives of a node whether they keep it. `Collects` goes through a selection set and the
fragments that a concrete type enters (`Enters`); `At` follows the kept fields down to all
selection sets that are merged at one place of a response. The directives are either read for the
variables of a request, or not at all: then every node counts that some request could select.

A flattening agrees with such a reading (`brings_iff`): what it has found under clauses that hold
is what the reading collects.
-/

set_option autoImplicit false

namespace QueryPlan

/-! ## The fields of a selection set -/

namespace Setting

variable (g : Setting) (keep : List DirectiveNode → Bool) (t : ObjectType)

/-- The field nodes in some selections that a type selects, in fragments too, on a way on which
every node is kept. -/
inductive Collects : List SelectionNode → FieldNode → Prop
  | field {sels id node} :
      .field id ∈ sels → g.view.field? id = some node → keep node.directives = true →
      Collects sels node
  | fragment {sels sel use node} :
      sel ∈ sels → g.Opens t sel use → keep use.directives = true →
      Collects (g.view.selectionsOf use.selectionSet) node → Collects sels node

/-- The fragments in some selections that a type opens, inside one another too, on a way on which
every node is kept, that of the fragment included. -/
inductive Enters : List SelectionNode → FragmentUse → Prop
  | here {sels sel use} :
      sel ∈ sels → g.Opens t sel use → keep use.directives = true → Enters sels use
  | inside {sels sel outer use} :
      sel ∈ sels → g.Opens t sel outer → keep outer.directives = true →
      Enters (g.view.selectionsOf outer.selectionSet) use → Enters sels use

/-- A way down a response, the last step first: response keys, and the names of the concrete
types of the values that stand there. -/
abbrev ResponsePath := List (String × String)

/-- The selection sets that are merged at a place of a response: the root, and below a place the
sub-selections of every kept field node there, for each type that the field can have. -/
inductive At (rootType : ObjectType) (root : SelectionSetId) :
    ResponsePath → ObjectType → SelectionSetId → Prop
  | root : At rootType root [] rootType root
  | step {path t set node field t' inner} :
      At rootType root path t set → g.Collects keep t (g.view.selectionsOf set) node →
      t.field? node.name = some field → node.selectionSet = some inner →
      t' ∈ g.schema.possibleTypes field.type.innermost →
      At rootType root ((node.responseKey, t'.name) :: path) t' inner

variable {g keep t} {sel : SelectionNode} {rest : List SelectionNode} {node : FieldNode}

/-! One selection after another. -/

theorem collects_nil : ¬ g.Collects keep t [] node := by
  intro h
  cases h with
  | field hmem => exact absurd hmem List.not_mem_nil
  | fragment hmem => exact absurd hmem List.not_mem_nil

theorem Collects.of_mem {sels sels' : List SelectionNode} (h : g.Collects keep t sels node)
    (hsub : ∀ sel ∈ sels, sel ∈ sels') : g.Collects keep t sels' node := by
  cases h with
  | field hmem hn hkeep => exact .field (hsub _ hmem) hn hkeep
  | fragment hmem hopens hkeep hinner => exact .fragment (hsub _ hmem) hopens hkeep hinner

theorem Collects.cons (sel : SelectionNode) (h : g.Collects keep t rest node) :
    g.Collects keep t (sel :: rest) node :=
  h.of_mem fun _ hm => List.mem_cons_of_mem _ hm

theorem collects_cons_field {id : FieldId} {n : FieldNode} (hn : g.view.field? id = some n) :
    g.Collects keep t (.field id :: rest) node ↔
      n = node ∧ keep n.directives = true ∨ g.Collects keep t rest node := by
  constructor
  · intro h
    cases h with
    | field hmem hm hkeep =>
        rcases List.mem_cons.1 hmem with heq | hmem
        · cases heq
          rw [hn, Option.some_inj] at hm
          exact Or.inl ⟨hm, hm ▸ hkeep⟩
        · exact Or.inr (.field hmem hm hkeep)
    | fragment hmem hopens hkeep hinner =>
        rcases List.mem_cons.1 hmem with rfl | hmem
        · cases hopens
        · exact Or.inr (.fragment hmem hopens hkeep hinner)
  · rintro (⟨rfl, hkeep⟩ | h)
    · exact .field List.mem_cons_self hn hkeep
    · exact h.cons _

theorem collects_cons_opens {use : FragmentUse} (huse : g.Opens t sel use) :
    g.Collects keep t (sel :: rest) node ↔
      (keep use.directives = true ∧
        g.Collects keep t (g.view.selectionsOf use.selectionSet) node) ∨
        g.Collects keep t rest node := by
  constructor
  · intro h
    cases h with
    | field hmem hm hkeep =>
        rcases List.mem_cons.1 hmem with rfl | hmem
        · cases huse
        · exact Or.inr (.field hmem hm hkeep)
    | fragment hmem hopens hkeep hinner =>
        rcases List.mem_cons.1 hmem with rfl | hmem
        -- the selection opens no other fragment
        · obtain rfl := huse.unique hopens
          exact Or.inl ⟨hkeep, hinner⟩
        · exact Or.inr (.fragment hmem hopens hkeep hinner)
  · rintro (⟨hkeep, hinner⟩ | h)
    · exact .fragment List.mem_cons_self huse hkeep hinner
    · exact h.cons _

theorem collects_cons_passes (hp : g.Passes t sel) :
    g.Collects keep t (sel :: rest) node ↔ g.Collects keep t rest node := by
  refine ⟨fun h => ?_, Collects.cons sel⟩
  cases h with
  | field hmem hm hkeep =>
      rcases List.mem_cons.1 hmem with rfl | hmem
      · cases hp with
        | noField hn => exact absurd (hn.symm.trans hm) (by simp)
      · exact .field hmem hm hkeep
  | fragment hmem hopens hkeep hinner =>
      rcases List.mem_cons.1 hmem with rfl | hmem
      · exact absurd hopens hp.not_opens
      · exact .fragment hmem hopens hkeep hinner

theorem Enters.of_mem {sels sels' : List SelectionNode} {use : FragmentUse}
    (h : g.Enters keep t sels use) (hsub : ∀ sel ∈ sels, sel ∈ sels') :
    g.Enters keep t sels' use := by
  cases h with
  | here hmem hopens hkeep => exact .here (hsub _ hmem) hopens hkeep
  | inside hmem hopens hkeep hinner => exact .inside (hsub _ hmem) hopens hkeep hinner

theorem Enters.cons (sel : SelectionNode) {use : FragmentUse} (h : g.Enters keep t rest use) :
    g.Enters keep t (sel :: rest) use :=
  h.of_mem fun _ hm => List.mem_cons_of_mem _ hm

theorem exists_enters_cons {source : DeferredSource}
    (h : ∃ use, source = use.source ∧ g.Enters keep t rest use) :
    ∃ use, source = use.source ∧ g.Enters keep t (sel :: rest) use := by
  obtain ⟨use, hsource, henters⟩ := h
  exact ⟨use, hsource, henters.cons sel⟩

/-- What is kept under one reading is kept under one that keeps more. -/
theorem Collects.mono {keep' : List DirectiveNode → Bool} {sels : List SelectionNode}
    (h : g.Collects keep t sels node) (hkeep : ∀ ds, keep ds = true → keep' ds = true) :
    g.Collects keep' t sels node := by
  induction h with
  | field hmem hn hk => exact .field hmem hn (hkeep _ hk)
  | fragment hmem hopens hk _ ih => exact .fragment hmem hopens (hkeep _ hk) ih

theorem At.mono {keep' : List DirectiveNode → Bool} {rootType : ObjectType}
    {root set : SelectionSetId} {path : ResponsePath} (h : g.At keep rootType root path t set)
    (hkeep : ∀ ds, keep ds = true → keep' ds = true) : g.At keep' rootType root path t set := by
  induction h with
  | root => exact .root
  | step _ hcollects hf hinner ht ih => exact .step ih (hcollects.mono hkeep) hf hinner ht

end Setting

/-! ## Readings of directives -/

/-- A way to read directives, and clauses accordingly. -/
structure Reading where
  keep : List DirectiveNode → Bool
  holds : Option Clause → Bool
  holds_always : holds (some .always) = true
  holds_reachedUnder : ∀ clause ds, holds (reachedUnder clause ds) = (holds clause && keep ds)

/-- Directives read for the variables of a request. -/
def Variables.reading (vars : Variables) : Reading where
  keep := vars.keep
  holds clause := clause.any (·.isSatisfied vars)
  holds_always := rfl
  holds_reachedUnder := Clause.any_bind_andDirectives

/-- Directives not read at all. -/
def Reading.static : Reading where
  keep _ := true
  holds _ := true
  holds_always := rfl
  holds_reachedUnder _ _ := rfl

/-- Under a reading, what was found amounts to a field node: it is an occurrence of it, or a
deferred fragment that holds one. -/
def Found.Brings (g : Setting) (r : Reading) (t : ObjectType) (node : FieldNode) : Found → Prop
  | .field n _ clause => n = node ∧ r.holds clause = true
  | .deferral d => r.holds (some d.clause) = true ∧
    g.Collects r.keep t (g.view.selectionsOf d.selectionSet) node

namespace Setting

variable {g : Setting} {t : ObjectType} {answers : Bool → Prop} {fs : List Found}

/-- What a flattening has found amounts to what the reading collects. -/
theorem Flattens.brings_iff {sels : List SelectionNode} {clause : Option Clause}
    (h : g.Flattens t answers sels clause fs) (r : Reading) (node : FieldNode) :
    (∃ f ∈ fs, f.Brings g r t node) ↔
      r.holds clause = true ∧ g.Collects r.keep t sels node := by
  induction h with
  | nil => simp [collects_nil]
  | @field id n field rest clause fs hn hf _ ih =>
      rw [List.exists_mem_cons_iff, ih, collects_cons_field hn, Found.Brings,
        r.holds_reachedUnder, Bool.and_eq_true, and_or_left, and_left_comm]
  | passed hp _ ih => rw [ih, collects_cons_passes hp]
  -- a fragment that is entered brings what its selections bring
  | @entered sel use rest clause fs fs' hopens _ _ _ ih ih' =>
      have happend : (∃ f ∈ fs ++ fs', f.Brings g r t node) ↔
          (∃ f ∈ fs, f.Brings g r t node) ∨ ∃ f ∈ fs', f.Brings g r t node := by
        simp only [List.mem_append, or_and_right, exists_or]
      rw [happend, ih, ih', collects_cons_opens hopens, r.holds_reachedUnder, Bool.and_eq_true,
        and_or_left, and_assoc]
  -- and one that is set aside brings the same, all at once
  | @deferred sel use rest clause c d fs hopens hc hd _ _ ih =>
      have hreached := r.holds_reachedUnder clause use.directives
      rw [hc] at hreached
      rw [List.exists_mem_cons_iff, ih, collects_cons_opens hopens, Found.Brings, hreached,
        Bool.and_eq_true, and_or_left, and_assoc]

/-- The same for several selection sets. -/
theorem FlattensAll.brings_iff {sources : List ClausedSet}
    (h : g.FlattensAll t answers sources fs) (r : Reading) (node : FieldNode) :
    (∃ f ∈ fs, f.Brings g r t node) ↔
      ∃ c ∈ sources, r.holds (some c.clause) = true ∧
        g.Collects r.keep t (g.view.selectionsOf c.selectionSet) node := by
  induction h with
  | nil => simp
  | @cons c cs fs fs' hflat _ ih =>
      have happend : (∃ f ∈ fs ++ fs', f.Brings g r t node) ↔
          (∃ f ∈ fs, f.Brings g r t node) ∨ ∃ f ∈ fs', f.Brings g r t node := by
        simp only [List.mem_append, or_and_right, exists_or]
      rw [happend, hflat.brings_iff r node, ih, List.exists_mem_cons_iff]

/-- A fragment that is set aside under a clause that holds is entered by the reading. -/
theorem Flattens.enters {sels : List SelectionNode} {clause : Option Clause}
    (h : g.Flattens t answers sels clause fs) (r : Reading) {d : PendingDeferral}
    (hd : .deferral d ∈ fs) (hholds : r.holds (some d.clause) = true) :
    r.holds clause = true ∧ ∃ use, d.source = use.source ∧ g.Enters r.keep t sels use := by
  induction h with
  | nil => exact absurd hd List.not_mem_nil
  | field _ _ _ ih =>
      obtain ⟨hclause, hentered⟩ := ih (List.mem_of_ne_of_mem (by simp) hd)
      exact ⟨hclause, exists_enters_cons hentered⟩
  | passed _ _ ih =>
      obtain ⟨hclause, hentered⟩ := ih hd
      exact ⟨hclause, exists_enters_cons hentered⟩
  | entered hopens _ _ _ ih ih' =>
      rcases List.mem_append.1 hd with hd | hd
      -- it stands inside a fragment that is entered
      · obtain ⟨hreached, use, hsource, henters⟩ := ih hd
        rw [r.holds_reachedUnder, Bool.and_eq_true] at hreached
        exact ⟨hreached.1, use, hsource, .inside List.mem_cons_self hopens hreached.2 henters⟩
      · obtain ⟨hclause, hentered⟩ := ih' hd
        exact ⟨hclause, exists_enters_cons hentered⟩
  | @deferred sel use rest clause c directive fs hopens hc _ _ _ ih =>
      rcases List.mem_cons.1 hd with heq | hd
      · cases heq
        have hreached := r.holds_reachedUnder clause use.directives
        rw [hc, hholds, eq_comm, Bool.and_eq_true] at hreached
        exact ⟨hreached.1, use, rfl, .here List.mem_cons_self hopens hreached.2⟩
      · obtain ⟨hclause, hentered⟩ := ih hd
        exact ⟨hclause, exists_enters_cons hentered⟩

/-- The same for several selection sets. -/
theorem FlattensAll.enters {sources : List ClausedSet} (h : g.FlattensAll t answers sources fs)
    (r : Reading) {d : PendingDeferral} (hd : .deferral d ∈ fs)
    (hholds : r.holds (some d.clause) = true) :
    ∃ source ∈ sources, r.holds (some source.clause) = true ∧ ∃ use, d.source = use.source ∧
      g.Enters r.keep t (g.view.selectionsOf source.selectionSet) use := by
  induction h with
  | nil => exact absurd hd List.not_mem_nil
  | cons hflat _ ih =>
      rcases List.mem_append.1 hd with hd | hd
      · exact ⟨_, List.mem_cons_self, hflat.enters r hd hholds⟩
      · obtain ⟨source, hsource, hentered⟩ := ih hd
        exact ⟨source, List.mem_cons_of_mem _ hsource, hentered⟩

end Setting

end QueryPlan
