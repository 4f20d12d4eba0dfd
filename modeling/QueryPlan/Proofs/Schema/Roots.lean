import QueryPlan.Proofs.Schema.Described

/-!
# Root types

For each kind of operation a block may name the root type, in any source, and no two blocks can
name one for the same kind. Where no block does so, the object with the usual name is taken, for
this kind alone: the blocks that name the roots of other kinds do not matter.

A document means something else by a block that leaves out a kind, which is that there are no
operations of this kind (`meantRoot`). The root types are those that are meant, unless an object
has the usual name of a kind that is left out (`rootFor_eq_meantRoot_iff`).
-/

set_option autoImplicit false

namespace QueryPlan

open QueryPlan.Syntax

namespace Syntax.SchemaDocument

variable {ds : SchemaDocument} {kind : OperationKind}

/-- The blocks of root types, in order. -/
def blocks (ds : SchemaDocument) : List RootTypes :=
  ds.filterMap fun
    | .roots r => some r
    | _ => none

/-- The root type that is meant: the one that a block names or, if there are no blocks, the object
with the usual name. -/
def meantRoot (ds : SchemaDocument) (kind : OperationKind) : Option String :=
  match ds.rootNames kind with
  | name :: _ => some name
  | [] =>
    if ds.blocks = [] ∧ ds.Defines .object kind.defaultRootName then some kind.defaultRootName
    else none

theorem rootNames_eq (ds : SchemaDocument) (kind : OperationKind) :
    ds.rootNames kind = ds.blocks.filterMap (·.named kind) := by
  rw [rootNames, blocks, List.filterMap_filterMap]
  refine List.filterMap_congr fun d _ => ?_
  cases d <;> rfl

theorem rootNames_eq_nil_iff :
    ds.rootNames kind = [] ↔ ∀ r ∈ ds.blocks, r.named kind = none := by
  rw [rootNames_eq, List.filterMap_eq_nil_iff]

/-- A block that names a root type is the only one to do so. -/
theorem Sound.rootNames_of_named (hds : ds.Sound) {r : RootTypes} (hr : r ∈ ds.blocks)
    {name : String} (hname : r.named kind = some name) : ds.rootNames kind = [name] := by
  have hmem : name ∈ ds.rootNames kind := by
    rw [rootNames_eq]
    exact List.mem_filterMap.2 ⟨r, hr, hname⟩
  have hone := hds.roots kind
  cases hnames : ds.rootNames kind with
  | nil =>
      rw [hnames] at hmem
      cases hmem
  | cons first rest =>
      rw [hnames] at hmem hone
      obtain rfl : rest = [] := List.eq_nil_of_length_eq_zero (by simpa using hone)
      rw [List.mem_singleton.1 hmem]

/-- What is meant is what is taken, unless an object has the usual name of a kind that is left
out. -/
theorem rootFor_eq_meantRoot_iff : ds.rootFor kind = ds.meantRoot kind ↔
    ds.blocks = [] ∨ ds.rootNames kind ≠ [] ∨ ¬ ds.Defines .object kind.defaultRootName := by
  unfold rootFor meantRoot
  cases ds.rootNames kind with
  | cons name names => simp
  | nil =>
      by_cases hobject : ds.Defines .object kind.defaultRootName
      · by_cases hblocks : ds.blocks = []
        · simp [hblocks]
        · simp [hobject, hblocks]
      · simp [hobject]

end Syntax.SchemaDocument

namespace Schema

variable {ss : List SchemaSource} {s : Schema} {kind : OperationKind}

/-- Two blocks that name a root type for one kind of operation cannot be loaded. -/
theorem exists_error_of_blocks {r r' : RootTypes}
    (hblocks : [r, r'].Sublist (SchemaSource.all ss).blocks) (hr : (r.named kind).isSome)
    (hr' : (r'.named kind).isSome) : ∃ e, SchemaBuilder.ofSources ss = .error e := by
  obtain ⟨name, hname⟩ := Option.isSome_iff_exists.1 hr
  obtain ⟨name', hname'⟩ := Option.isSome_iff_exists.1 hr'
  have hnames : [name, name'].Sublist ((SchemaSource.all ss).rootNames kind) := by
    have hpair : [r, r'].filterMap (·.named kind) = [name, name'] := by simp [hname, hname']
    rw [SchemaDocument.rootNames_eq, ← hpair]
    exact hblocks.filterMap _
  cases hb : SchemaBuilder.ofSources ss with
  | error e => exact ⟨e, rfl⟩
  | ok b =>
      -- a builder holds no more than one name for each kind
      have hone : (b.rootNames kind).length ≤ 1 := by
        rw [SchemaBuilder.rootNames, List.length_map]
        cases b.root? kind <;> simp
      rw [(SchemaBuilder.takesUp_addSources hb).rootNames] at hone
      exact absurd (Nat.le_trans hnames.length_le hone) (by simp)

/-- **What a block names is a root type, and what no block names has the usual name.** No two blocks
name one for the same kind. The root types of a schema are what the sources mean by them unless
there are blocks which leave out a kind, and an object has its usual name. -/
theorem roots_of_blocks (ss : List SchemaSource) :
    (∀ kind r r', [r, r'].Sublist (SchemaSource.all ss).blocks → (r.named kind).isSome →
      (r'.named kind).isSome → ∃ e, SchemaBuilder.ofSources ss = .error e) ∧
    ∀ s, ofSources ss = .ok s → ∀ kind,
      (∀ r ∈ (SchemaSource.all ss).blocks, ∀ name, r.named kind = some name →
        s.rootName? kind = some name) ∧
      ((∀ r ∈ (SchemaSource.all ss).blocks, r.named kind = none) →
        s.rootName? kind =
          if (SchemaSource.all ss).Defines .object kind.defaultRootName then
            some kind.defaultRootName
          else none) ∧
      (s.rootName? kind = (SchemaSource.all ss).meantRoot kind ↔
        (SchemaSource.all ss).blocks = [] ∨
          (∃ r ∈ (SchemaSource.all ss).blocks, (r.named kind).isSome) ∨
          ¬ (SchemaSource.all ss).Defines .object kind.defaultRootName) := by
  refine ⟨fun kind r r' => exists_error_of_blocks, fun s hs kind => ?_⟩
  obtain ⟨hds, h⟩ := madeFrom_of_ofSources hs
  refine ⟨fun r hr name hname => ?_, fun hnone => ?_, ?_⟩
  · rw [h.roots, SchemaDocument.rootFor, hds.rootNames_of_named hr hname]
  · rw [h.roots, SchemaDocument.rootFor, SchemaDocument.rootNames_eq_nil_iff.2 hnone]
  · have hnamed : (SchemaSource.all ss).rootNames kind ≠ [] ↔
        ∃ r ∈ (SchemaSource.all ss).blocks, (r.named kind).isSome := by
      rw [Ne, SchemaDocument.rootNames_eq_nil_iff]
      simp [Option.isSome_iff_ne_none]
    rw [h.roots, SchemaDocument.rootFor_eq_meantRoot_iff, hnamed]

end Schema

namespace Pets

/-- A block for reading only. -/
def reads : RootTypes := ⟨some "Root", none, none, here⟩

/-- A block for changes only. -/
def changes : RootTypes := ⟨none, some "Change", none, here⟩

def object (name : String) : SchemaDefinition :=
  .type ⟨name, none, .object [] [field "name" "String"], here⟩

/-- Two sources, each with one of the blocks. -/
def shelter : List SchemaSource :=
  [⟨none, [.roots reads, object "Root"]⟩, ⟨none, [object "Change", .roots changes]⟩]

/-- A source that names the root of changes again. -/
def again : SchemaSource := ⟨none, [.roots changes]⟩

/-- A block for reading only, beside an object that has the usual name for changes. -/
def museum : List SchemaSource :=
  [⟨none, [.roots reads, object "Root", object "Mutation"]⟩]

end Pets

namespace Schema

theorem roots_of_blocks_shelter :
    (∃ e, SchemaBuilder.ofSources (Pets.shelter ++ [Pets.again]) = .error e) ∧
    ∃ s, ofSources Pets.shelter = .ok s ∧ s.rootName? .query = some "Root" ∧
      s.rootName? .mutation = some "Change" ∧ s.rootName? .subscription = none := by
  obtain ⟨htwice, -⟩ := roots_of_blocks (Pets.shelter ++ [Pets.again])
  obtain ⟨-, hroots⟩ := roots_of_blocks Pets.shelter
  obtain ⟨s, hs⟩ := exists_ok_of_isOk (x := ofSources Pets.shelter) (by decide +kernel)
  have hblocks : (SchemaSource.all Pets.shelter).blocks = [Pets.reads, Pets.changes] := rfl
  refine ⟨htwice .mutation Pets.changes Pets.changes (List.sublist_cons_self _ _) rfl rfl, s, hs,
    ?_, ?_, ?_⟩
  · exact (hroots s hs .query).1 Pets.reads (by simp [hblocks]) "Root" rfl
  · exact (hroots s hs .mutation).1 Pets.changes (by simp [hblocks]) "Change" rfl
  · exact (hroots s hs .subscription).2.1 (by decide)

/-- There is a root for changes, though the only block leaves it out. -/
theorem mutation_museum : ∃ s, ofSources Pets.museum = .ok s ∧
    (SchemaSource.all Pets.museum).blocks = [Pets.reads] ∧ Pets.reads.named .mutation = none ∧
    s.rootName? .mutation = some "Mutation" := by
  have hmutation : (ofSources Pets.museum).toOption.map (·.rootName? .mutation) =
      some (some "Mutation") := by decide +kernel
  obtain ⟨s, hs⟩ := exists_ok_of_isOk (x := ofSources Pets.museum) (by decide +kernel)
  rw [hs] at hmutation
  exact ⟨s, hs, rfl, rfl, Option.some.inj hmutation⟩

end Schema

end QueryPlan
