import QueryPlan.Proofs.Plan.Agreement

/-!
# What a plan includes, deferred fragments too

Where fragments are deferred, what a plan includes at a place of a response is spread over parts:
the selection sets that stand there, and those of their deferred fragments. A request finds a
part if the fragments that lead to it are included (`Plan.PartAt`). Whatever has been deferred,
all parts at a place together include what the syntax selects there (`includes_iff_selects`).
Each part stands for some of it (`Stands`), and what is selected is an occurrence in one of the
parts (`Stands.covers`).
-/

set_option autoImplicit false

namespace QueryPlan

variable {σ : Type}

/-! ## Parts -/

/-- The selection sets that a set amounts to: itself, and those of its deferred fragments that
count. -/
inductive SelectionSet.Offers (counts : DeferredFragment SelectionSet → Bool) :
    SelectionSet → SelectionSet → Prop
  | self {set} : Offers counts set set
  | deferred {set d part} : d ∈ set.deferred → counts d = true →
      Offers counts d.selectionSet part → Offers counts set part

theorem SelectionSet.Offers.trans {counts : DeferredFragment SelectionSet → Bool}
    {a b c : SelectionSet} (hab : a.Offers counts b) (hbc : b.Offers counts c) :
    a.Offers counts c := by
  induction hab with
  | self => exact hbc
  | deferred hd hcount _ ih => exact .deferred hd hcount (ih hbc)

namespace Plan

/-- The parts that a request finds at a place of a response. -/
inductive PartAt (p : Plan) (vars : Variables) : Setting.ResponsePath → SelectionSet → Prop
  | root {set part} : p.rootSelectionSet = .ok set →
      set.Offers (fun d => d.isIncluded vars) part → PartAt p vars [] part
  | step {path above s key type set part} :
      PartAt p vars path above → s ∈ above.included vars → s.selectionSet = some key →
      p.selectionSet key type = .ok set → set.Offers (fun d => d.isIncluded vars) part →
      PartAt p vars ((s.responseKey, type) :: path) part

/-- The field is part of the response under a key at a place. -/
def Includes (p : Plan) (vars : Variables) (path : Setting.ResponsePath) (key : String)
    (field : Field) : Prop :=
  ∃ part, p.PartAt vars path part ∧ ∃ s ∈ part.included vars, s.responseKey = key ∧ s.field = field

/-- The parts of a part stand where it does. -/
theorem PartAt.offers {p : Plan} {vars : Variables} {path : Setting.ResponsePath}
    {part part' : SelectionSet} (h : p.PartAt vars path part)
    (hoffers : part.Offers (fun d => d.isIncluded vars) part') : p.PartAt vars path part' := by
  cases h with
  | root hroot h => exact .root hroot (h.trans hoffers)
  | step habove hs hkey hset h => exact .step habove hs hkey hset (h.trans hoffers)

end Plan

/-- A deferred fragment counts where its clause holds under a reading. -/
def Reading.Counts (r : Reading) (counts : DeferredFragment SelectionSet → Bool) : Prop :=
  ∀ d set, counts (PendingDeferral.finish d set) = r.holds (some d.clause)

theorem Variables.reading_counts (vars : Variables) :
    vars.reading.Counts fun d => d.isIncluded vars :=
  fun _ _ => IncludeCondition.isIncluded_ofClause _

theorem Reading.static_counts : Reading.static.Counts fun _ => true := fun _ _ => rfl

namespace CompileInput

variable {input : CompileInput σ} {p : Plan} {bound fuel n : Nat} {r : Reading}
  {vars : Variables} {path : Setting.ResponsePath} {task : BuildTask σ} {set part : SelectionSet}
  {fs : List Found} {counts : DeferredFragment SelectionSet → Bool}

/-! ## What parts stand for -/

/-- The set was made by passive optimizers from sources that stand at a place, within what the
bound leaves at that depth. -/
structure Stands (input : CompileInput σ) (p : Plan) (bound : Nat) (r : Reading)
    (path : Setting.ResponsePath) (fuel : Nat) (task : BuildTask σ) (set : SelectionSet) :
    Prop where
  made : input.MadeWithin p.variants fuel task set
  room : path.length + fuel ≤ bound
  passive : ∀ o ∈ task.optimizers, o.Passive
  static : input.Placed .static p.rootType p.root path task
  placed : input.Placed r p.rootType p.root path task

theorem Stands.spelled (hdocument : input.document.Closed)
    (hfragments : input.fragments.Within input.document)
    (h : input.Stands p bound r path fuel task set) :
    ∃ n fs, fuel = n + 1 ∧
      input.Spelled p.variants (input.MadeWithin p.variants n) task (fun _ => True) fs set := by
  have hmade := h.made
  cases fuel with
  | zero => exact hmade.elim
  | succ n =>
      obtain ⟨fs, hspelled⟩ := Made.spelled hdocument hfragments h.passive
        (fun _ => CollectScope.answers_any _) h.static.has hmade
      exact ⟨n, fs, rfl, hspelled⟩

/-- What stands at a place could be selected there by some request. -/
theorem Stands.general (h : input.Stands p bound r path fuel task set) :
    input.Stands p bound .static path fuel task set :=
  ⟨h.made, h.room, h.passive, h.static, h.static⟩

/-- The set of a deferred fragment that counts stands where the fragment was found. -/
theorem Stands.deferral (h : input.Stands p bound r path (n + 1) task set)
    (hspelled : input.Spelled p.variants (input.MadeWithin p.variants n) task (fun _ => True)
      fs set) {d : PendingDeferral} (hd : .deferral d ∈ fs)
    (hholds : r.holds (some d.clause) = true)
    (hmade : input.MadeWithin p.variants n (task.deferral d) part) :
    input.Stands p bound r path n (task.deferral d) part where
  made := hmade
  room := by
    have hroom := h.room
    omega
  passive := h.passive
  static := h.static.deferral hspelled.flattens hspelled.within hd rfl
  placed := h.placed.deferral hspelled.flattens hspelled.within hd hholds

/-- The sets below a selection stand at the place below. -/
theorem Stands.sub (hdocument : input.document.Closed) (hpassive : input.pipeline.Passive)
    (hagree : input.setting.NamesAgree p.rootType p.root)
    (h : input.Stands p bound r path (n + 1) task set)
    (hspelled : input.Spelled p.variants (input.MadeWithin p.variants n) task (fun _ => True)
      fs set) {key : String} {o : FoundField} {os : List FoundField}
    (hocc : occurrencesAt key fs = o :: os) {t : ObjectType}
    (ht : t ∈ input.schema.possibleTypes o.field.type.innermost) {below : SelectionSet}
    (hmade : input.MadeWithin p.variants n (input.subTask task (o :: os) key o.field t) below) :
    input.Stands p bound r ((key, t.name) :: path) n
      (input.subTask task (o :: os) key o.field t) below where
  made := hmade
  room := by
    have hroom := h.room
    rw [List.length_cons]
    omega
  passive := passive_subTask hpassive h.passive
  static := h.static.sub hdocument h.static hagree hspelled.flattens hspelled.within hocc ht
  placed := h.placed.sub hdocument h.static hagree hspelled.flattens hspelled.within hocc ht

/-- Each part that counts stands at the place of the whole. -/
theorem Stands.offers (hdocument : input.document.Closed)
    (hfragments : input.fragments.Within input.document) (hcounts : r.Counts counts)
    (h : input.Stands p bound r path fuel task set) (hoffers : set.Offers counts part) :
    ∃ fuel task, input.Stands p bound r path fuel task part := by
  induction hoffers generalizing fuel task with
  | self => exact ⟨fuel, task, h⟩
  | @deferred set e part he hcount _ ih =>
      obtain ⟨n, fs, rfl, hspelled⟩ := h.spelled hdocument hfragments
      obtain ⟨d, hd, sub, hsub, rfl⟩ := exists_of_mem_right hspelled.deferred he
      rw [hcounts] at hcount
      -- the fragment is one that was found, and its set stands where it was found
      have hmem : .deferral d ∈ fs := by
        obtain ⟨f, hf, hdf⟩ := List.mem_filterMap.1 hd
        cases f with
        | field _ _ _ => cases hdf
        | deferral d' =>
            cases hdf
            exact hf
      exact ih (h.deferral hspelled hmem hcount hsub)

/-- What a reading collects in a source is an occurrence in one of the parts that count. -/
theorem Stands.covers (hdocument : input.document.Closed)
    (hfragments : input.fragments.Within input.document) (hcounts : r.Counts counts)
    (h : input.Stands p bound r path fuel task set) {c : ClausedSet} (hc : c ∈ task.sources)
    (hclause : r.holds (some c.clause) = true) {node : FieldNode}
    (hcollects : input.setting.Collects r.keep task.objectType
      (input.setting.view.selectionsOf c.selectionSet) node) :
    ∃ part n task' fs, set.Offers counts part ∧ task'.objectType = task.objectType ∧
      input.Stands p bound r path (n + 1) task' part ∧
      input.Spelled p.variants (input.MadeWithin p.variants n) task' (fun _ => True) fs part ∧
      ∃ o ∈ occurrencesAt node.responseKey fs, o.node = node ∧ r.holds o.clause = true := by
  induction fuel generalizing task set c with
  | zero => exact h.made.elim
  | succ fuel ih =>
      obtain ⟨n, fs, hfuel, hspelled⟩ := h.spelled hdocument hfragments
      cases hfuel
      obtain ⟨f, hf, hbrings⟩ := (hspelled.flattens.brings_iff r node).2 ⟨c, hc, hclause, hcollects⟩
      cases f with
      | field n' field clause =>
          obtain ⟨rfl, hholds⟩ := hbrings
          exact ⟨set, fuel, task, fs, .self, rfl, h, hspelled, ⟨n', field, clause⟩,
            mem_occurrencesAt.2 ⟨hf, rfl⟩, rfl, hholds⟩
      | deferral d =>
          -- the fragment holds the node, and has a part of its own
          obtain ⟨hholds, hinner⟩ := hbrings
          obtain ⟨e, he, sub, hsub, rfl⟩ := exists_of_mem_left hspelled.deferred
            (List.mem_filterMap.2 ⟨_, hf, rfl⟩ : d ∈ fs.filterMap Found.deferral?)
          obtain ⟨part, n, task', fs', hoffers, htype, hstands, hspelled', hocc⟩ :=
            ih (h.deferral hspelled hf hholds hsub) (List.mem_singleton_self _)
              r.holds_always hinner
          have hcount : counts (d.finish sub) = true := (hcounts d sub).trans hholds
          exact ⟨part, n, task', fs', .deferred he hcount hoffers, htype, hstands, hspelled', hocc⟩

/-! ## Plans -/

variable {name : Option String}

/-- The root of a plan stands at the root of its operation. -/
theorem Compiled.stands (hdocument : input.document.Closed) (hpassive : input.pipeline.Passive)
    (h : input.Compiled bound name p) (r : Reading) :
    ∃ set, p.rootSelectionSet = .ok set ∧
      input.Stands p bound r [] bound (input.rootTask p.root p.rootType) set := by
  obtain ⟨set, hset, hmade⟩ := h.exists_root
  have hroot : input.document.Has p.root :=
    hdocument.operation p.operation (Document.operation_mem h.operation)
  exact ⟨set, hset, hmade, (Nat.zero_add _).le, hpassive.general, placed_root hroot,
    placed_root hroot⟩

/-- Whatever can be looked up below a selection stands at the place below. -/
theorem Stands.below (hdocument : input.document.Closed)
    (hfragments : input.fragments.Within input.document) (hpassive : input.pipeline.Passive)
    (hagree : input.setting.NamesAgree p.rootType p.root)
    (h : input.Stands p bound r path fuel task set) {s : Selection} (hs : s ∈ set.selections)
    {key : SelectionSetId} (hkey : s.selectionSet = some key) {type : String}
    {below : SelectionSet} (hbelow : p.selectionSet key type = .ok below) :
    ∃ fuel task, input.Stands p bound r ((s.responseKey, type) :: path) fuel task below := by
  obtain ⟨n, fs, rfl, hspelled⟩ := h.spelled hdocument hfragments
  obtain ⟨o, os, v, hocc, -, hv, hforall⟩ := hspelled.child hs hkey
  obtain ⟨t, ht, rfl, hmade⟩ := Plan.exists_type_of_selectionSet hv hforall hbelow
  exact ⟨n, _, h.sub hdocument hpassive hagree hspelled hocc ht hmade⟩

/-- Every part that a request finds stands at its place. -/
theorem Compiled.stands_of_partAt (hdocument : input.document.Closed)
    (hfragments : input.fragments.Within input.document) (hpassive : input.pipeline.Passive)
    (h : input.Compiled bound name p) (hagree : input.setting.NamesAgree p.rootType p.root)
    (hpart : p.PartAt vars path part) :
    ∃ fuel task, input.Stands p bound vars.reading path fuel task part := by
  induction hpart with
  | root hroot hoffers =>
      obtain ⟨set, hroot', hstands⟩ := h.stands hdocument hpassive vars.reading
      rw [hroot, Except.ok.injEq] at hroot'
      subst hroot'
      exact hstands.offers hdocument hfragments vars.reading_counts hoffers
  | step _ hs hkey hset hoffers ih =>
      obtain ⟨fuel, task, hstands⟩ := ih
      obtain ⟨fuel, task, hbelow⟩ := hstands.below hdocument hfragments hpassive hagree
        (List.mem_of_mem_filter hs) hkey hset
      exact hbelow.offers hdocument hfragments vars.reading_counts hoffers

/-- Where an occurrence has sub-selections, so has the selection of its key, for each type that
the field can have, and they are among the sources there. -/
theorem Stands.inner (hagree : input.setting.NodesAgree p.rootType p.root)
    (h : input.Stands p bound r path (n + 1) task set)
    (hspelled : input.Spelled p.variants (input.MadeWithin p.variants n) task (fun _ => True)
      fs set) {o' : FoundField} (ho' : o' ∈ occurrencesAt o'.node.responseKey fs)
    {field : Field} (hfield : task.objectType.field? o'.node.name = some field)
    {inner : SelectionSetId} (hinner : o'.node.selectionSet = some inner) {t : ObjectType}
    (ht : t ∈ input.schema.possibleTypes field.type.innermost) :
    ∃ s ∈ set.selections, s.responseKey = o'.node.responseKey ∧ ∃ key below os o,
      s.selectionSet = some key ∧ occurrencesAt o'.node.responseKey fs = o :: os ∧
      o.field = field ∧ p.selectionSet key t.name = .ok below ∧
      input.MadeWithin p.variants n
        (input.subTask task (o :: os) o'.node.responseKey o.field t) below := by
  obtain ⟨s, hs, hkey⟩ := hspelled.exists_selection (List.ne_nil_of_mem ho')
  obtain ⟨o, os, hocc, hof⟩ := hspelled.selection s hs
  rw [hkey] at hocc
  have ho : o ∈ occurrencesAt o'.node.responseKey fs := hocc ▸ List.mem_cons_self
  have hsame := (h.static.field_eq hagree.namesAgree hspelled.flattens ho ho').2
  rw [hfield, Option.some_inj] at hsame
  -- the first occurrence has sub-selections as well
  have hnodes := (hagree (h.static.occurrence hspelled.flattens ho rfl)
    (h.static.occurrence hspelled.flattens ho' rfl) (mem_occurrencesAt.1 ho).2).2
  rw [hinner, Option.isSome_some, Option.isSome_iff_exists] at hnodes
  obtain ⟨inner', hinner'⟩ := hnodes
  obtain ⟨key, v, hsel, hv, hforall⟩ := hof.inner hinner'
  rw [← hsame] at hforall
  obtain ⟨below, hbelow, hmade⟩ := Plan.exists_selectionSet hv hforall ht
  rw [hkey] at hmade
  exact ⟨s, hs, hkey, key, below, os, o, hsel, hocc, hsame.symm, hbelow, hsame ▸ hmade⟩

/-- What stands at a place for the variables is a source of one of the parts that a request
finds there. -/
theorem Compiled.covers (hdocument : input.document.Closed)
    (hfragments : input.fragments.Within input.document) (hpassive : input.pipeline.Passive)
    (h : input.Compiled bound name p) (hagree : input.setting.NodesAgree p.rootType p.root)
    {t : ObjectType} {source : SelectionSetId}
    (hat : input.setting.At vars.keep p.rootType p.root path t source) :
    ∃ part fuel task, p.PartAt vars path part ∧ task.objectType = t ∧
      input.Stands p bound vars.reading path fuel task part ∧
      ∃ c ∈ task.sources, c.selectionSet = source ∧ c.clause.isSatisfied vars = true := by
  induction hat with
  | root =>
      obtain ⟨set, hroot, hstands⟩ := h.stands hdocument hpassive vars.reading
      exact ⟨set, bound, _, .root hroot .self, rfl, hstands, _, List.mem_singleton_self _, rfl, rfl⟩
  | @step path t source node field t' inner hat hcollects hf hinner ht ih =>
      obtain ⟨part, fuel, task, hpart, rfl, hstands, c, hc, rfl, hsat⟩ := ih
      obtain ⟨part', n, task', fs, hoffers, htype, hstands', hspelled, o', ho', rfl, hholds⟩ :=
        hstands.covers hdocument hfragments vars.reading_counts hc hsat hcollects
      rw [← htype] at hf
      obtain ⟨s, hs, hkey, key, below, os, o, hsel, hocc, rfl, hbelow, hmade⟩ :=
        hstands'.inner hagree hspelled ho' hf hinner ht
      -- the node is reached, so its selection is included and leads to the place below
      have hincluded : s ∈ part'.included vars :=
        (hspelled.mem_included_iff hs).2 ⟨o', hkey ▸ ho', hholds⟩
      have hpart' : p.PartAt vars path part' := hpart.offers hoffers
      obtain ⟨cl, hclause, hsat'⟩ := (Option.any_eq_true _ _).1 hholds
      refine ⟨below, n, _, hkey ▸ .step hpart' hincluded hsel hbelow .self, rfl,
        hstands'.sub hdocument hpassive hagree.namesAgree hspelled hocc ht hmade, ⟨inner, cl⟩,
        mem_subTask_sources.2 ⟨o', hocc ▸ ho', hclause, hinner⟩, rfl, hsat'⟩

/-- **A plan includes what the syntax selects**, whatever has been deferred: counting at each
place all parts that a request finds there, the response keys and fields that are included are
those of the nodes that the syntax gives at that place. -/
theorem Compiled.includes_iff_selects (hdocument : input.document.Closed)
    (hfragments : input.fragments.Within input.document) (hpassive : input.pipeline.Passive)
    (h : input.Compiled bound name p) (hagree : input.setting.NodesAgree p.rootType p.root)
    (key : String) (field : Field) :
    p.Includes vars path key field ↔
      ∃ t node, input.setting.Selects vars.keep p.rootType p.root path t node ∧
        node.responseKey = key ∧ t.field? node.name = some field := by
  constructor
  · rintro ⟨part, hpart, s, hs, rfl, rfl⟩
    obtain ⟨fuel, task, hstands⟩ :=
      h.stands_of_partAt hdocument hfragments hpassive hagree.namesAgree hpart
    obtain ⟨n, fs, rfl, hspelled⟩ := hstands.spelled hdocument hfragments
    have hmem : s ∈ part.selections := List.mem_of_mem_filter hs
    obtain ⟨o', ho', hholds⟩ := (hspelled.mem_included_iff hmem).1 hs
    exact ⟨task.objectType, o'.node, hstands.placed.occurrence hspelled.flattens ho' hholds,
      (mem_occurrencesAt.1 ho').2,
      hstands.static.selection_field hagree.namesAgree hspelled hmem ho'⟩
  · rintro ⟨t, node, ⟨source, hat, hcollects⟩, rfl, hfield⟩
    obtain ⟨part, fuel, task, hpart, rfl, hstands, c, hc, rfl, hsat⟩ :=
      h.covers hdocument hfragments hpassive hagree hat
    obtain ⟨part', n, task', fs, hoffers, htype, hstands', hspelled, o', ho', rfl, hholds⟩ :=
      hstands.covers hdocument hfragments vars.reading_counts hc hsat hcollects
    rw [← htype] at hfield
    obtain ⟨s, hs, hkey⟩ := hspelled.exists_included_iff.2 ⟨o', ho', hholds⟩
    have hsame := hstands'.static.selection_field hagree.namesAgree hspelled
      (List.mem_of_mem_filter hs) (hkey ▸ ho')
    rw [hfield, Option.some_inj] at hsame
    exact ⟨part', hpart.offers hoffers, s, hs, hkey, hsame.symm⟩

end CompileInput

end QueryPlan
