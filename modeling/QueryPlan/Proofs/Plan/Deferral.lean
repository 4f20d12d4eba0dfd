import QueryPlan.Proofs.Plan.Compiles
import QueryPlan.Proofs.Plan.Parts

/-!
# Deferring moves selections, and changes none

An operation may be compiled as it stands, or with an optimizer that refuses all deferral. If the
first compilation succeeds, so does the second: the first has read every place that a request
reaches, and has gone at least as deep. The second plan has no deferred fragments. Both include
what the syntax selects, so they include the same at every place of a response.
-/

set_option autoImplicit false

namespace QueryPlan

variable {σ τ : Type}

namespace CompileInput

variable {input : CompileInput σ} {p : Plan} {bound fuel : Nat} {name : Option String}
  {task : BuildTask σ} {set : SelectionSet} {path : Setting.ResponsePath} {r : Reading}

/-! ## What a finished compilation has read -/

/-- The sources that a set was made from can be read, deferred fragments included. -/
theorem Stands.readable (hdocument : input.document.Closed)
    (hfragments : input.fragments.Within input.document)
    (h : input.Stands p bound .static path fuel task set) {c : ClausedSet}
    (hc : c ∈ task.sources) :
    input.setting.Readable task.objectType (input.setting.view.selectionsOf c.selectionSet) := by
  induction fuel generalizing task set c with
  | zero => exact h.made.elim
  | succ n ih =>
      obtain ⟨n', fs, hn, hspelled⟩ := h.spelled hdocument hfragments
      cases hn
      -- what is set aside in the source has a set that was made from it
      obtain ⟨fs', hfs', hsub⟩ := hspelled.flattens.of_mem hc
      refine hfs'.readable fun d hd => ?_
      obtain ⟨e, -, set', hset', -⟩ := exists_of_mem_left hspelled.deferred
        (List.mem_filterMap.2 ⟨_, hsub hd, rfl⟩ : d ∈ fs.filterMap Found.deferral?)
      exact ih (h.deferral hspelled (hsub hd) rfl hset') (List.mem_singleton_self _)

/-- Whatever deferral there was, a compilation that has come to an end has read all places and
gone deep enough. -/
theorem Compiled.compiles (hdocument : input.document.Closed)
    (hfragments : input.fragments.Within input.document) (hpassive : input.pipeline.Passive)
    (h : input.Compiled bound name p) (hagree : input.setting.NodesAgree p.rootType p.root) :
    input.setting.Compiles p.rootType p.root bound := by
  refine ⟨?_, fun {vars path t source} hat => ?_, ?_⟩
  · obtain ⟨set, -, hstands⟩ := h.stands hdocument hpassive .static
    obtain ⟨n, -, hn, -⟩ := hstands.spelled hdocument hfragments
    omega
  · obtain ⟨part, fuel, task, -, rfl, hstands, c, hc, rfl, -⟩ :=
      h.covers hdocument hfragments hpassive hagree hat
    exact hstands.general.readable hdocument hfragments hc
  · intro vars path t source node field inner t' hat hcollects hf hinner ht
    obtain ⟨part, fuel, task, -, rfl, hstands, c, hc, rfl, -⟩ :=
      h.covers hdocument hfragments hpassive hagree hat
    obtain ⟨part', n, task', fs, -, htype, hstands', hspelled, o, ho, rfl, -⟩ :=
      hstands.general.covers hdocument hfragments Reading.static_counts hc rfl hcollects
    rw [← htype] at hf
    obtain ⟨s, -, -, key, below, os, o', -, hocc, rfl, -, hmade⟩ :=
      hstands'.inner hagree hspelled ho hf hinner ht
    -- a set was made below, so there was fuel left for it
    have hroom := hstands'.room
    cases n with
    | zero => exact hmade.elim
    | succ n => omega

/-! ## Plans without deferred fragments -/

/-- Where an optimizer for every set refuses, no set has deferred fragments. -/
theorem MadeFor.deferred_eq_nil {t : ObjectType} {o : Optimizer σ} (ho : o ∈ input.pipeline.general)
    (hrefuses : o.RefusesDeferral) (h : input.MadeFor p t set) : set.deferred = [] := by
  obtain ⟨-, fuel, task, -, hgeneral, hmade⟩ := h
  obtain ⟨n, hmade⟩ := hmade.made
  obtain ⟨hcollect, hdeferrals, -, -, -, -, -⟩ := hmade
  rename_i s s₁ s₂ s₃ c m deferred selections jobs
  obtain ⟨memory, hwalk, -⟩ := runs_collect.1 hcollect
  have hanswers : (input.scope (input.contextOf task) task.optimizers s).Answers
      fun b => b = false := hrefuses.answers (hgeneral ho)
  obtain ⟨fs, hfs, rfl⟩ := CollectScope.collectAll_flattens hanswers hwalk
  rw [Collected.deferrals_eq_nil (hfs.not_deferral fun _ _ h => absurd h (by decide))] at hdeferrals
  cases hdeferrals
  rfl

/-! ## With and without deferral -/

/-- Plans of one operation start at the same root with the same type. -/
theorem Compiled.same_root {other : CompileInput τ} {bound' : Nat} {q : Plan}
    (h : input.Compiled bound name p) (h' : other.Compiled bound' name q)
    (hschema : other.schema = input.schema) (hdocument : other.document = input.document) :
    q.root = p.root ∧ q.rootType = p.rootType := by
  have hop := h'.operation
  rw [hdocument, h.operation, Except.ok.injEq] at hop
  have htype := h'.rootType
  rw [hschema, ← hop, h.rootType, Option.some_inj] at htype
  exact ⟨(congrArg OperationNode.selectionSet hop).symm, htype.symm⟩

/-- **Deferring a fragment never changes what is selected, only where.** If an operation can be
compiled without optimizers, then it can be with one that refuses all deferral and revises
nothing. The plan so compiled has no deferred fragments; and for any variables it includes the
same fields as the first one at every place of a response, where the parts of the first are
counted together. -/
theorem includes_iff_of_refusal (hschema : input.schema.Built) (hdocument : input.document.Built)
    (hfragments : FragmentIndex.build input.document = .ok input.fragments)
    (hpipeline : input.pipeline = .empty) {memory memory' : σ}
    (h : input.compileWithin bound name memory = (.ok p, memory'))
    (hagree : input.setting.NodesAgree p.rootType p.root) {o : Optimizer τ} (hpassive : o.Passive)
    (hrefuses : o.RefusesDeferral) (m : τ) :
    ∃ q m', (input.withPipeline (Pipeline.empty.withOptimizer o)).compileWithin bound name m =
        (.ok q, m') ∧
      (∀ key type set, q.selectionSet key type = .ok set → set.deferred = []) ∧
      ∀ (vars : Variables) path key field,
        p.Includes vars path key field ↔ q.Includes vars path key field := by
  have hclosed := hdocument.closed
  have hwithin : input.fragments.Within input.document :=
    FragmentIndex.within_of_build hclosed hfragments
  have hempty : input.pipeline.Passive := hpipeline ▸ Pipeline.passive_empty
  have hcompiled := compiled_of_compileWithin hschema hdocument hempty.lawful h
  have hcompiles := hcompiled.compiles hclosed hwithin hempty hagree
  -- the other compilation is of the same operation, and reads it in the same setting
  let other := input.withPipeline (Pipeline.empty.withOptimizer o)
  have hschema' : other.schema.Built := hschema
  have hdocument' : other.document.Built := hdocument
  have hclosed' : other.document.Closed := hclosed
  have hwithin' : other.fragments.Within other.document := hwithin
  have ho : o ∈ other.pipeline.general := Pipeline.mem_general_withOptimizer.2 (.inr rfl)
  have hother : other.pipeline.Passive := Pipeline.passive_empty.withOptimizer hpassive
  have hplan : ∃ q m', other.compileWithin bound name m = (.ok q, m') :=
    exists_plan_of_compiles hclosed' hfragments hother ⟨o, ho, hrefuses⟩ hcompiled.operation
      hcompiled.rootType hagree.namesAgree hcompiles m
  obtain ⟨q, m', hq⟩ := hplan
  have hcompiled' := compiled_of_compileWithin hschema' hdocument' hother.lawful hq
  obtain ⟨hroot, hrootType⟩ := hcompiled.same_root hcompiled' rfl rfl
  have hagree' : other.setting.NodesAgree q.rootType q.root := by
    rw [hroot, hrootType]
    exact hagree
  refine ⟨q, m', hq, fun key type set hset => ?_, fun vars path key field => ?_⟩
  · obtain ⟨t, -, hmade⟩ := hcompiled'.madeFor_of_selectionSet hschema'.wellNamed hset
    exact hmade.deferred_eq_nil ho hrefuses
  · rw [hcompiled.includes_iff_selects hclosed hwithin hempty hagree,
      hcompiled'.includes_iff_selects hclosed' hwithin' hother hagree', hroot, hrootType]
    rfl

end CompileInput

namespace Rule

/-- The rule that refuses all deferral. -/
def refuse : Rule := ⟨none, none, .veto none none⟩

theorem passive_refuse : refuse.optimizer.Passive :=
  fun _ _ _ journal => ⟨journal, rfl⟩

theorem refusesDeferral_refuse : refuse.optimizer.RefusesDeferral where
  spread _ _ _ _ := rfl
  inlineFragment _ _ _ := rfl

end Rule

namespace Linked

open Syntax

/-- Deferred fragments in one another, under conditions that partly contradict one another, and
with fields that are selected outside of them too. -/
def deferringDefinitions : ExecutableDocument :=
  let test (name v : String) : Directive := ⟨name, [("if", .var v)], here⟩
  let defer : Directive := ⟨"defer", [], here⟩
  [query [select "next" [test "include" "a"] [select "__typename" [] []],
    .spread ⟨"Rest", [defer, test "skip" "a"], here⟩],
   fragment "Rest" [.spread ⟨"Deep", [test "include" "b", defer], here⟩,
    select "next" [test "include" "a"] [select "next" [] [select "__typename" [] []]]],
   fragment "Deep" [select "next" [] [.inlineFragment ⟨some "Leaf", [defer], here⟩ here
    [select "__typename" [test "skip" "c"] []]]]]

def deferring : Document :=
  okValue (Document.build none deferringDefinitions) (by decide +kernel)

theorem deferring_built : deferring.Built :=
  ⟨none, deferringDefinitions, eq_ok_okValue (by decide +kernel)⟩

def deferringFragments : FragmentIndex :=
  okValue (FragmentIndex.build deferring) (by decide +kernel)

theorem deferringFragments_eq : FragmentIndex.build deferring = .ok deferringFragments := by
  unfold deferringFragments
  exact eq_ok_okValue _

/-- The compilation of it without optimizers. -/
def deferred : CompileInput Unit := ⟨schema, deferring, deferringFragments, .empty⟩

theorem includes_iff_of_refusal_deferring :
    ∃ p memory, deferred.compileWithin 10 none () = (.ok p, memory) ∧
    ∃ q m', (deferred.withPipeline
        (Pipeline.empty.withOptimizer Rule.refuse.optimizer)).compileWithin 10 none [] =
          (.ok q, m') ∧
      (∀ key type set, q.selectionSet key type = .ok set → set.deferred = []) ∧
      ∀ (vars : Variables) path key field,
        p.Includes vars path key field ↔ q.Includes vars path key field := by
  obtain ⟨p, memory, h⟩ :=
    exists_eq_ok (x := deferred.compileWithin 10 none ()) (by decide +kernel)
  have hagree : deferred.setting.NodesAgree p.rootType p.root :=
    Setting.nodesAgree_of_fields (d := deferring) (by decide +kernel) _ _
  exact ⟨p, memory, h, CompileInput.includes_iff_of_refusal schema_built deferring_built
    deferringFragments_eq rfl h hagree Rule.passive_refuse Rule.refusesDeferral_refuse []⟩

end Linked

end QueryPlan
