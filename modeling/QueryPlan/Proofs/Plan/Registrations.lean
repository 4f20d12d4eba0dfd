import QueryPlan.Proofs.Plan.Calls
import QueryPlan.Proofs.Plan.Tree

/-!
# Which registrations are active

The optimizers that revise a selection set are those of a list of registrations: first all for
every selection set, in order, and then, for one selection on the path after another, those for
its field. A registration for a field comes in anew at every selection that it matches. So it is
in the list once for each of them, and revises the selection set as often.
-/

set_option autoImplicit false

namespace QueryPlan

variable {σ : Type}

/-- A place in a pipeline where an optimizer is registered: one for every selection set, or one
for those below a field. -/
inductive Registration
  | general (index : Nat)
  | byField (index : Nat)
deriving DecidableEq

namespace Pipeline

variable (p : Pipeline σ)

/-- The optimizer that is registered there. -/
def optimizer? : Registration → Option (Optimizer σ)
  | .general i => p.general[i]?
  | .byField i => p.byField[i]?.map (·.optimizer)

/-- Whether the registration of that number is for a field of a type. -/
def isFor (t : ObjectType) (field : String) (i : Nat) : Bool :=
  p.byField[i]?.any (matchesField t field)

/-- Whether the registration of that number is for the field that a job is about. -/
def matchesJob (i : Nat) (job : ChildJob) : Bool := p.isFor job.declaringType job.field.name i

/-- The registrations for the field that a job is about, in order. -/
def registrationsFor (job : ChildJob) : List Registration :=
  ((List.range p.byField.length).filter (p.isFor job.declaringType job.field.name)).map .byField

/-- The registrations that are active below some jobs. -/
def registrations (jobs : List ChildJob) : List Registration :=
  (List.range p.general.length).map .general ++ jobs.flatMap p.registrationsFor

variable {p}

theorem map_getElem?_range {α : Type} (xs : List α) :
    (List.range xs.length).map (xs[·]?) = xs.map some :=
  List.ext_getElem (by simp) (by simp)

/-- The optimizers below a job are those of the registrations for it. -/
theorem map_optimizer?_registrationsFor (job : ChildJob) :
    (p.registrationsFor job).map p.optimizer? =
      (p.below job.declaringType job.field.name).map some := by
  let applies := matchesField (σ := σ) job.declaringType job.field.name
  calc (p.registrationsFor job).map p.optimizer?
      = (((List.range p.byField.length).filter (Option.any applies ∘ (p.byField[·]?))).map
          (p.byField[·]?)).map (Option.map (·.optimizer)) := by
        rw [registrationsFor, List.map_map, List.map_map]
        rfl
    _ = (((List.range p.byField.length).map (p.byField[·]?)).filter (Option.any applies)).map
          (Option.map (·.optimizer)) := by rw [List.filter_map]
    _ = (p.below job.declaringType job.field.name).map some := by
        rw [map_getElem?_range, List.filter_map, List.map_map, below, List.map_map]
        rfl

/-- The optimizers that are active below some jobs are those of the registrations. -/
theorem map_optimizer?_registrations (jobs : List ChildJob) :
    (p.registrations jobs).map p.optimizer? =
      (p.general ++ jobs.flatMap fun job => p.below job.declaringType job.field.name).map some := by
  rw [registrations, List.map_append, List.map_append, List.map_map, List.map_flatMap,
    List.map_flatMap]
  refine congrArg₂ _ (map_getElem?_range p.general) ?_
  exact List.flatMap_congr fun job _ => map_optimizer?_registrationsFor job

/-- A registration for a field comes in once below a job that it matches. -/
theorem count_registrationsFor (i : Nat) (job : ChildJob) :
    (p.registrationsFor job).count (.byField i) = if p.matchesJob i job then 1 else 0 := by
  have hinj : Function.Injective Registration.byField := fun _ _ h => Registration.byField.inj h
  rw [registrationsFor, List.count_map_of_injective _ _ hinj]
  split
  · rename_i hmatches
    have hlt : i < p.byField.length := by
      obtain ⟨o, ho, -⟩ := (Option.any_eq_true _ _).1 hmatches
      exact (List.getElem?_eq_some_iff.1 ho).1
    rw [List.count_filter (p := p.isFor job.declaringType job.field.name) hmatches]
    exact List.count_eq_one_of_mem List.nodup_range (List.mem_range.2 hlt)
  · rename_i hnot
    exact List.count_eq_zero_of_not_mem fun hmem => hnot (List.mem_filter.1 hmem).2

/-- A registration for a field is active once for each job that it matches. -/
theorem count_byField (i : Nat) (jobs : List ChildJob) :
    (p.registrations jobs).count (.byField i) = jobs.countP (p.matchesJob i) := by
  have hgeneral : ((List.range p.general.length).map Registration.general).count (.byField i) = 0 :=
    List.count_eq_zero_of_not_mem fun hmem => by simp at hmem
  rw [registrations, List.count_append, hgeneral, Nat.zero_add]
  induction jobs with
  | nil => rfl
  | cons job jobs ih =>
      rw [List.flatMap_cons, List.count_append, count_registrationsFor, ih, List.countP_cons,
        Nat.add_comm]

/-- A registration for every selection set is active once. -/
theorem count_general {i : Nat} (hi : i < p.general.length) (jobs : List ChildJob) :
    (p.registrations jobs).count (.general i) = 1 := by
  have hinj : Function.Injective Registration.general := fun _ _ h => Registration.general.inj h
  have hscoped : (jobs.flatMap p.registrationsFor).count (.general i) = 0 :=
    List.count_eq_zero_of_not_mem fun hmem => by simp [registrationsFor] at hmem
  rw [registrations, List.count_append, hscoped, Nat.add_zero, List.count_map_of_injective _ _ hinj]
  exact List.count_eq_one_of_mem List.nodup_range (List.mem_range.2 hi)

/-- No registration is active twice exactly if none matches two of the jobs. -/
theorem nodup_registrations_iff {jobs : List ChildJob} :
    (p.registrations jobs).Nodup ↔ ∀ i, jobs.countP (p.matchesJob i) ≤ 1 := by
  rw [List.nodup_iff_count_le_one]
  constructor
  · exact fun h i => count_byField i jobs ▸ h (.byField i)
  · intro h r
    cases r with
    | byField i => exact (count_byField i jobs).trans_le (h i)
    | general i =>
        by_cases hi : i < p.general.length
        · exact (count_general hi jobs).le
        · refine (List.count_eq_zero_of_not_mem fun hmem => hi ?_).trans_le (Nat.zero_le 1)
          simpa [registrations, registrationsFor] using hmem

end Pipeline

namespace CompileInput

variable {input : CompileInput σ} {bound : Nat} {name : Option String} {memory : σ}
  {jobs : List ChildJob} {call : BuildCall σ}

/-- **Which registrations revise a selection set.** Its optimizers are those of a list that starts
with all registrations for every selection set, in order, each of them once. A registration for a
field is in it as often as there are selections on the path that it matches; so no registration
revises the selection set twice exactly if none matches two selections on the path. -/
theorem registrations_of_performs (h : input.Performs bound name memory jobs call) :
    call.task.path = jobs.map ChildJob.segment ∧
      call.task.optimizers.map some =
        (input.pipeline.registrations jobs).map input.pipeline.optimizer? ∧
      (List.range input.pipeline.general.length).map .general <+:
        input.pipeline.registrations jobs ∧
      (∀ i < input.pipeline.general.length,
        (input.pipeline.registrations jobs).count (.general i) = 1) ∧
      (∀ i, (input.pipeline.registrations jobs).count (.byField i) =
        jobs.countP (input.pipeline.matchesJob i)) ∧
      ((input.pipeline.registrations jobs).Nodup ↔
        ∀ i, jobs.countP (input.pipeline.matchesJob i) ≤ 1) := by
  obtain ⟨hpath, hoptimizers⟩ := h.task_eq
  refine ⟨hpath, ?_, List.prefix_append _ _, fun i hi => Pipeline.count_general hi jobs,
    fun i => Pipeline.count_byField i jobs, Pipeline.nodup_registrations_iff⟩
  rw [hoptimizers, Pipeline.map_optimizer?_registrations]

/-! ## Recorders in a list -/

variable {input : CompileInput Journal} {context : PlanContext} {m : SelectionMap}

/-- What a recorder writes down when it is shown the drafts of a selection set. -/
def recordOf (input : CompileInput Journal) (context : PlanContext) (m : SelectionMap)
    (s : CompileState Journal) (recorder : String) : JournalEntry :=
  .selectionSet recorder context (Rule.visited (s.view input.document) m)

theorem runs_applyOptimizer_recorder (s : CompileState Journal) (recorder : String) :
    Runs (input.applyOptimizer context m (Rule.optimizer ⟨none, none, .record recorder⟩)) s m
      { s with memory := s.memory ++ [input.recordOf context m s recorder] } := by
  unfold applyOptimizer
  refine runs_bind.2 ⟨s, s, runs_get.2 ⟨rfl, rfl⟩, ?_⟩
  exact runs_bind.2 ⟨⟨⟩, _, runs_set.2 rfl, runs_pure.2 ⟨rfl, rfl⟩⟩

theorem runs_applyOptimizers_recorders (s : CompileState Journal) (recorders : List String) :
    Runs ((recorders.map fun r => Rule.optimizer ⟨none, none, .record r⟩).foldlM
      (input.applyOptimizer context) m) s m
      { s with memory := s.memory ++ recorders.map (input.recordOf context m s) } := by
  induction recorders generalizing s with
  | nil => exact runs_foldlM_nil.2 ⟨rfl, by rw [List.map_nil, List.append_nil]⟩
  | cons r rs ih =>
      refine runs_foldlM_cons.2 ⟨m, _, runs_applyOptimizer_recorder s r, ?_⟩
      have hrest := ih { s with memory := s.memory ++ [input.recordOf context m s r] }
      rw [List.append_assoc] at hrest
      exact hrest

/-- Recorders write down what they are shown one after another, each as often as it is in the
list. -/
theorem runs_optimize_recorders (hkeys : ∀ e ∈ m.entries, e.1 = e.2.responseKey)
    (s : CompileState Journal) (recorders : List String) :
    Runs (input.optimize context
        (recorders.map fun r => Rule.optimizer ⟨none, none, .record r⟩) m) s m
      { s with memory := s.memory ++ recorders.map (input.recordOf context m s) } := by
  unfold optimize
  split
  · rename_i hempty
    obtain rfl : recorders = [] := List.map_eq_nil_iff.1 (List.isEmpty_iff.1 hempty)
    exact runs_pure.2 ⟨rfl, by rw [List.map_nil, List.append_nil]⟩
  · refine runs_bind.2 ⟨m, _, runs_applyOptimizers_recorders s recorders, ?_⟩
    rw [misplaced?_eq_none_iff.2 hkeys]
    exact runs_pure.2 ⟨rfl, rfl⟩

end CompileInput

namespace Linked

/-- One recorder for every selection set, and one for those below links. -/
def recorders : Pipeline Journal :=
  (Pipeline.empty.withOptimizer (Rule.optimizer ⟨none, none, .record "all"⟩)).withFieldOptimizer
    "Node" "next" (Rule.optimizer ⟨none, none, .record "links"⟩)

theorem recorders_lawful : recorders.Lawful where
  general o ho := by
    obtain rfl := List.mem_singleton.1 ho
    exact Rule.lawful_optimizer _
  byField o ho := by
    obtain rfl := List.mem_singleton.1 ho
    exact Rule.lawful_optimizer _

def recording : CompileInput Journal := ⟨schema, document, fragments, recorders⟩

/-- Whether a selection is a link of a node to others. -/
def isLink (s : Selection) : Bool :=
  s.selectionSet.isSome && recorders.isFor s.declaringType s.field.name 0 &&
    !(schema.possibleTypes s.field.type.innermost).isEmpty

/-- Whether below a link, for some type, there is another one. -/
def linksTwice (set : SelectionSet) (s : CompileState Journal) : Bool :=
  set.selections.any fun sel => isLink sel &&
    (schema.possibleTypes sel.field.type.innermost).any fun t =>
      (CompileInput.below? s sel t).any fun below => below.selections.any isLink

theorem linksTwice_root : (recording.rootPasses 10 none [] fun _ _ => linksTwice) = true := by
  decide +kernel

theorem isLink_iff {s : Selection} : isLink s = true ↔ (∃ key, s.selectionSet = some key) ∧
    recorders.isFor s.declaringType s.field.name 0 = true ∧
      ∃ t, t ∈ schema.possibleTypes s.field.type.innermost := by
  rw [isLink, Bool.and_eq_true, Bool.and_eq_true, Option.isSome_iff_exists, and_assoc,
    Bool.not_eq_true', List.isEmpty_eq_false_iff_exists_mem]

theorem below_links {t : ObjectType} {field : String} (h : recorders.isFor t field 0 = true) :
    recorders.below t field = [Rule.optimizer ⟨none, none, .record "links"⟩] := by
  have hmatches : Pipeline.matchesField t field
      ⟨"Node", "next", Rule.optimizer ⟨none, none, .record "links"⟩⟩ = true := h
  rw [Pipeline.below, show recorders.byField =
    [⟨"Node", "next", Rule.optimizer ⟨none, none, .record "links"⟩⟩] from rfl,
    List.filter_cons_of_pos hmatches]
  rfl

/-- Below a link, the recorder for links is active once. -/
theorem registrations_of_performs_linked : ∃ jobs call,
    recording.Performs 10 none [] jobs call ∧ jobs.length = 1 ∧
      call.task.path = jobs.map ChildJob.segment ∧
      call.task.optimizers.map some =
        (recording.pipeline.registrations jobs).map recording.pipeline.optimizer? ∧
      (recording.pipeline.registrations jobs).Nodup := by
  obtain ⟨task, s, set, s', hroot, hrun, htest⟩ := CompileInput.exists_root linksTwice_root
  obtain ⟨sel, hsel, htest⟩ := List.any_eq_true.1 htest
  obtain ⟨⟨key, hkey⟩, -, t, ht⟩ := isLink_iff.1 (Bool.and_eq_true_iff.1 htest).1
  obtain ⟨job, call, below, u, -, -, hcall, -⟩ :=
    hroot.exists_child schema_built document_built recorders_lawful hrun hsel hkey ht
  obtain ⟨hpath, hoptimizers, -, -, -, hnodup⟩ := CompileInput.registrations_of_performs hcall
  exact ⟨_, call, hcall, rfl, hpath, hoptimizers,
    hnodup.2 fun i => List.countP_le_length.trans_eq rfl⟩

/-- Below a link of a link, it is active twice, and writes down every selection set twice. -/
theorem recorder_twice : ∃ jobs call, recording.Performs 10 none [] jobs call ∧
    (recording.pipeline.registrations jobs).count (.byField 0) = 2 ∧
    ∀ (m : SelectionMap) (s : CompileState Journal), (∀ e ∈ m.entries, e.1 = e.2.responseKey) →
      Runs (recording.optimize (recording.contextOf call.task) call.task.optimizers m) s m
        { s with memory := s.memory ++
          ["all", "links", "links"].map (recording.recordOf (recording.contextOf call.task) m s) } := by
  obtain ⟨task, s, set, s', hroot, hrun, htest⟩ := CompileInput.exists_root linksTwice_root
  obtain ⟨sel, hsel, htest⟩ := List.any_eq_true.1 htest
  obtain ⟨hlink, htest⟩ := Bool.and_eq_true_iff.1 htest
  obtain ⟨⟨key, hkey⟩, hfor, -⟩ := isLink_iff.1 hlink
  obtain ⟨t, ht, htest⟩ := List.any_eq_true.1 htest
  obtain ⟨below, hbelow, htest⟩ := (Option.any_eq_true _ _).1 htest
  obtain ⟨sel', hsel', hlink'⟩ := List.any_eq_true.1 htest
  obtain ⟨⟨key', hkey'⟩, hfor', t', ht'⟩ := isLink_iff.1 hlink'
  -- one build below the link, and one below the link there
  obtain ⟨job, call, set', u, htype, hfield, hcall, hfuel, -, hrun', hstored⟩ :=
    hroot.exists_child schema_built document_built recorders_lawful hrun hsel hkey ht
  obtain rfl : set' = below := Option.some.inj (hstored.symm.trans hbelow)
  obtain ⟨fuel, task', s₁⟩ := call
  obtain rfl : fuel = 9 := hfuel
  obtain ⟨job', call', -, -, htype', hfield', hcall', -⟩ :=
    hcall.exists_child schema_built document_built recorders_lawful hrun' hsel' hkey' ht'
  rw [← htype, ← hfield] at hfor
  rw [← htype', ← hfield'] at hfor'
  refine ⟨_, call', hcall', ?_, fun m s hkeys => ?_⟩
  · have hcount : [job, job'].countP (recording.pipeline.matchesJob 0) = 2 :=
      List.countP_eq_length.2 (by simp [Pipeline.matchesJob, recording, hfor, hfor'])
    exact (Pipeline.count_byField 0 _).trans hcount
  · have hoptimizers : call'.task.optimizers =
        ["all", "links", "links"].map fun r => Rule.optimizer ⟨none, none, .record r⟩ := by
      rw [hcall'.task_eq.2]
      show recorders.general ++ (recorders.below job.declaringType job.field.name ++
        (recorders.below job'.declaringType job'.field.name ++ [])) = _
      rw [below_links hfor, below_links hfor']
      rfl
    rw [hoptimizers]
    exact CompileInput.runs_optimize_recorders hkeys s _

end Linked

end QueryPlan
